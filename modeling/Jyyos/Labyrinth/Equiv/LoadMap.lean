import Jyyos.Labyrinth.LoadMap
import Jyyos.Labyrinth.Equiv.Basic
import Mathlib.Data.List.FinRange
import Mathlib.Data.List.TakeWhile

/-!
# Loading and saving maps

A `MapFile R C` is an `R × C` table of characters other than NUL and newline; its `bytes` are the
file with one newline-terminated line a row.  `loadMap_bytes`: within the limits, `loadMap`
accepts such a file whatever the memory held, and the cells of the struct are those of the table
(`Loaded`); `saveMap_eq_bytes`: `saveMap` then writes the bytes of the file.

The general statement is `loadMap_cases`, for any file and the rows that the loop reads from it
(`readRows`): it says which are refused, and for the others which cells hold a character of the
file, which a terminator, and which what was there before (`Stored`).  The rows are stored one
after the other.  The terminator of a row of width 100 falls on the first cell of the next row,
which is stored afterwards, and that of row 99 on the field `rows`, which is assigned last.
-/

namespace Jyyos

namespace Labyrinth

/-! ### Storing a row -/

theorem map_store {l : Labyrinth} {o : ℕ} (ho : o < 10000) (b : UInt8) :
    (l.store o b).map = Function.update l.map o b := by
  have h : o < MAX_ROWS * MAX_COLS := ho
  rw [store, if_pos h]

theorem map_store_of_ne {l : Labyrinth} {o o' : ℕ} (hne : o' ≠ o) (b : UInt8) :
    (l.store o b).map o' = l.map o' := by
  unfold store
  split_ifs
  · exact Function.update_of_ne hne ..
  · rfl
  · rfl

theorem map_strncpy_of_lt (cs : List UInt8) : ∀ (l : Labyrinth) (o : ℕ) {o' : ℕ}, o' < o →
    (l.strncpy o cs).map o' = l.map o' := by
  induction cs with
  | nil => intro l o o' _; rfl
  | cons c cs ih =>
    intro l o o' h
    rw [strncpy, ih _ _ (by omega), map_store_of_ne (by omega)]

theorem map_strncpy_of_ge (cs : List UInt8) : ∀ (l : Labyrinth) (o : ℕ) {o' : ℕ},
    o + cs.length ≤ o' → (l.strncpy o cs).map o' = l.map o' := by
  induction cs with
  | nil => intro l o o' _; rfl
  | cons c cs ih =>
    intro l o o' h
    rw [List.length_cons] at h
    rw [strncpy, ih _ _ (by omega), map_store_of_ne (by omega)]

theorem map_strncpy (cs : List UInt8) : ∀ (l : Labyrinth) (o : ℕ) {j : ℕ} {c : UInt8},
    cs[j]? = some c → o + j < 10000 → (l.strncpy o cs).map (o + j) = c := by
  induction cs with
  | nil => intro l o j c hj; cases hj
  | cons c cs ih =>
    intro l o j c' hj ho
    rw [strncpy]
    cases j with
    | zero =>
      obtain rfl : c = c' := Option.some.inj hj
      show ((l.store o c).strncpy (o + 1) cs).map o = c
      rw [map_strncpy_of_lt cs _ _ (Nat.lt_succ_self o), map_store (show o < 10000 from ho)]
      exact Function.update_self ..
    | succ j =>
      have h := ih (l.store o c) (o + 1) (j := j) hj (by omega)
      rw [show o + (j + 1) = o + 1 + j by omega]
      exact h

/-! ### The rows that are read -/

/-- The rows that `loadMap` reads, at most `left` of them: what `fgets` puts in the buffer, up to
the first NUL and without the newline. -/
def readRows : ℕ → List UInt8 → List CStr
  | 0, _ => []
  | left + 1, file =>
    match fgets (MAX_COLS + 1) file with
    | none => []
    | some (buffer, file) => chomp (cstrOf buffer) :: readRows left file

theorem length_readRows_le (left : ℕ) : ∀ file, (readRows left file).length ≤ left := by
  induction left with
  | zero => exact fun _ => le_refl _
  | succ left ih =>
    intro file
    rw [readRows]
    split
    · exact Nat.zero_le _
    · exact Nat.succ_le_succ (ih _)

/-- The length of the longest of some rows. -/
def longest (rows : List CStr) : ℕ := rows.foldr (fun row n => max row.length n) 0

theorem longest_cons (row : CStr) (rows : List CStr) :
    longest (row :: rows) = max row.length (longest rows) := rfl

theorem longest_le_iff {rows : List CStr} {n : ℕ} :
    longest rows ≤ n ↔ ∀ row ∈ rows, row.length ≤ n := by
  induction rows with
  | nil => simp [longest]
  | cons row rows ih => rw [longest_cons, Nat.max_le, ih, List.forall_mem_cons]

theorem length_le_longest {rows : List CStr} {row : CStr} (h : row ∈ rows) :
    row.length ≤ longest rows := longest_le_iff.mp (le_refl _) row h

/-- The reading loop counts the rows and finds their width. -/
theorem loadLoop_size (left : ℕ) : ∀ (file : List UInt8) (rows maxCols : ℕ) (l : Labyrinth),
    ∃ l', loadLoop left file rows maxCols l =
      (rows + (readRows left file).length, max maxCols (longest (readRows left file)), l') := by
  induction left with
  | zero =>
    intro file rows maxCols l
    exact ⟨l, by rw [loadLoop, readRows, longest, List.foldr_nil, Nat.max_zero]; rfl⟩
  | succ left ih =>
    intro file rows maxCols l
    rw [loadLoop, readRows]
    cases hget : fgets (MAX_COLS + 1) file with
    | none => exact ⟨l, by rw [longest, List.foldr_nil, Nat.max_zero]; rfl⟩
    | some r =>
      obtain ⟨buffer, file'⟩ := r
      obtain ⟨l', hl'⟩ := ih file' (rows + 1)
        (if (l.loadRow rows buffer).1 > maxCols then (l.loadRow rows buffer).1 else maxCols)
        (l.loadRow rows buffer).2
      refine ⟨l', hl'.trans ?_⟩
      have hmax : (if (l.loadRow rows buffer).1 > maxCols then (l.loadRow rows buffer).1
          else maxCols) = max maxCols (chomp (cstrOf buffer)).length := by
        have hlen : (l.loadRow rows buffer).1 = (chomp (cstrOf buffer)).length := rfl
        rw [hlen]
        split_ifs <;> omega
      rw [hmax, longest_cons, List.length_cons, max_assoc]
      congr 1
      omega

/-- The rows `rs` are stored in `l'` from row `rows` on, each with its terminator; the rest of each
row, and what lies before row `rows`, is as it was in `l`. -/
structure Stored (rs : List CStr) (rows : ℕ) (l l' : Labyrinth) : Prop where
  below : ∀ o < rows * 100, l'.map o = l.map o
  char : ∀ (i : ℕ) (r : CStr), rs[i]? = some r → ∀ (j : ℕ) (c : UInt8), r[j]? = some c →
    l'.map ((rows + i) * 100 + j) = c
  nul : ∀ (i : ℕ) (r : CStr), rs[i]? = some r → r.length < 100 →
    l'.map ((rows + i) * 100 + r.length) = 0
  rest : ∀ (i : ℕ) (r : CStr), rs[i]? = some r → ∀ j, r.length < j → j < 100 →
    l'.map ((rows + i) * 100 + j) = l.map ((rows + i) * 100 + j)

/-- One row: the terminator of a full row falls on the first cell of the next one. -/
theorem Stored.cons {r : CStr} {rs : List CStr} {rows : ℕ} {l l' : Labyrinth} (hrows : rows < 100)
    (hr : r.length ≤ 100) (h : Stored rs (rows + 1)
      ((l.strncpy (rows * 100) r).store (rows * 100 + r.length) 0) l') :
    Stored (r :: rs) rows l l' := by
  refine ⟨fun o ho => ?_, fun i r' hi j c hj => ?_, fun i r' hi hlt => ?_,
    fun i r' hi j hj hlt => ?_⟩
  · rw [h.below o (by omega), map_store_of_ne (by omega), map_strncpy_of_lt _ _ _ ho]
  · cases i with
    | zero =>
      obtain rfl : r = r' := Option.some.inj hi
      have hjlt : j < r.length := (List.getElem?_eq_some_iff.mp hj).1
      rw [Nat.add_zero, h.below _ (by omega), map_store_of_ne (by omega),
        map_strncpy r l (rows * 100) hj (by omega)]
    | succ i =>
      rw [show rows + (i + 1) = rows + 1 + i by omega]
      exact h.char i r' hi j c hj
  · cases i with
    | zero =>
      obtain rfl : r = r' := Option.some.inj hi
      rw [Nat.add_zero, h.below _ (by omega), map_store (by omega)]
      exact Function.update_self ..
    | succ i =>
      rw [show rows + (i + 1) = rows + 1 + i by omega]
      exact h.nul i r' hi hlt
  · cases i with
    | zero =>
      obtain rfl : r = r' := Option.some.inj hi
      rw [Nat.add_zero, h.below _ (by omega), map_store_of_ne (by omega),
        map_strncpy_of_ge _ _ _ (by omega)]
    | succ i =>
      rw [show rows + (i + 1) = rows + 1 + i by omega, h.rest i r' hi j hj hlt]
      -- a cell to the right of a row is not the first one, so nothing has been stored there
      rw [map_store_of_ne (by omega), map_strncpy_of_ge _ _ _ (by omega)]

/-- The reading loop stores the rows, if they fit. -/
theorem loadLoop_stored (left : ℕ) : ∀ (file : List UInt8) (rows maxCols : ℕ) (l : Labyrinth),
    rows + left ≤ 100 → longest (readRows left file) ≤ 100 →
      Stored (readRows left file) rows l (loadLoop left file rows maxCols l).2.2 := by
  have hnil : ∀ (rows : ℕ) (l : Labyrinth), Stored [] rows l l :=
    fun rows l => ⟨fun _ _ => rfl, nofun, nofun, nofun⟩
  induction left with
  | zero => exact fun file rows maxCols l _ _ => hnil rows l
  | succ left ih =>
    intro file rows maxCols l hrows hlong
    rw [loadLoop]
    rw [readRows] at hlong ⊢
    cases hget : fgets (MAX_COLS + 1) file with
    | none => exact hnil rows l
    | some r =>
      obtain ⟨buffer, file'⟩ := r
      rw [hget, longest_cons, Nat.max_le] at hlong
      exact Stored.cons (by omega) hlong.1 (ih file' (rows + 1) _ _ (by omega) hlong.2)

/-- **What `loadMap` does with the rows that it reads.**  It refuses when there is none, when all
are empty and when one is too long; otherwise the struct holds them. -/
theorem loadMap_cases (mem : Labyrinth) (content : List UInt8) :
    ((longest (readRows MAX_ROWS content) = 0 ∨ 100 < longest (readRows MAX_ROWS content)) ∧
        loadMap mem (some content) = none) ∨
      (0 < longest (readRows MAX_ROWS content) ∧ longest (readRows MAX_ROWS content) ≤ 100 ∧
        ∃ l, loadMap mem (some content) = some l ∧
          l.rows = (readRows MAX_ROWS content).length ∧
          l.cols = longest (readRows MAX_ROWS content) ∧
          Stored (readRows MAX_ROWS content) 0 mem l) := by
  obtain ⟨l', hloop⟩ := loadLoop_size MAX_ROWS content 0 0 mem
  rw [Nat.zero_add, Nat.zero_max] at hloop
  have hle := length_readRows_le MAX_ROWS content
  have hrows : ¬ (readRows MAX_ROWS content).length > MAX_ROWS := not_lt.mpr hle
  have hcols : MAX_COLS = 100 := rfl
  unfold loadMap
  simp only [hloop, hcols, hrows, false_or]
  by_cases hzero : longest (readRows MAX_ROWS content) = 0
  · exact Or.inl ⟨Or.inl hzero, by rw [if_pos (Or.inr hzero)]⟩
  · -- a row that is not empty is a row
    have hlen : (readRows MAX_ROWS content).length ≠ 0 := by
      intro h
      rw [List.length_eq_zero_iff.mp h] at hzero
      exact hzero rfl
    rw [if_neg (not_or.mpr ⟨hlen, hzero⟩)]
    by_cases hlong : longest (readRows MAX_ROWS content) > 100
    · exact Or.inl ⟨Or.inr hlong, by rw [if_pos hlong]⟩
    · have hstored := loadLoop_stored MAX_ROWS content 0 0 mem (le_refl _) (not_lt.mp hlong)
      rw [hloop] at hstored
      refine Or.inr ⟨Nat.pos_of_ne_zero hzero, not_lt.mp hlong, _, by rw [if_neg hlong], rfl, rfl,
        ?_⟩
      exact ⟨hstored.below, hstored.char, hstored.nul, hstored.rest⟩

/-! ### Rectangular map files -/

/-- A map file of `R` lines of width `C`: the characters, none of them NUL or newline. -/
structure MapFile (R C : ℕ) where
  cell : Fin R → Fin C → UInt8
  plain : ∀ i j, cell i j ≠ 0 ∧ cell i j ≠ newline

namespace MapFile

variable {R C : ℕ}

/-- Row `i` as a list of characters. -/
def line (m : MapFile R C) (i : Fin R) : List UInt8 := (List.finRange C).map (m.cell i)

/-- The contents of the file. -/
def bytes (m : MapFile R C) : List UInt8 :=
  (List.finRange R).flatMap fun i => m.line i ++ [newline]

theorem newline_not_mem_line (m : MapFile R C) (i : Fin R) : newline ∉ m.line i := by
  intro h
  obtain ⟨j, -, hj⟩ := List.mem_map.mp h
  exact (m.plain i j).2 hj

theorem nul_not_mem_line (m : MapFile R C) (i : Fin R) : 0 ∉ m.line i := by
  intro h
  obtain ⟨j, -, hj⟩ := List.mem_map.mp h
  exact (m.plain i j).1 hj

theorem length_line (m : MapFile R C) (i : Fin R) : (m.line i).length = C := by
  simp [line]

end MapFile

/-- The struct holds the map of the file. -/
structure Loaded {R C : ℕ} (m : MapFile R C) (l : Labyrinth) : Prop where
  rows_eq : l.rows = R
  cols_eq : l.cols = C
  cell_eq : ∀ (i : Fin R) (j : Fin C), l.cell (i.val : ℤ) (j.val : ℤ) = m.cell i j

variable {R C : ℕ}

theorem Loaded.fits {m : MapFile R C} {l : Labyrinth} (h : Loaded m l) (hR : R ≤ 100)
    (hC : C ≤ 100) : l.Fits :=
  ⟨by rw [h.rows_eq]; omega, by rw [h.cols_eq]; omega⟩

theorem offset_natCast (i j : ℕ) : offset (i : ℤ) (j : ℤ) = i * 100 + j := by
  rw [offset_eq]
  omega

/-- Whole lines are read as they are. -/
theorem readRows_lines (lines : List CStr) : ∀ left, lines.length ≤ left →
    (∀ line ∈ lines, newline ∉ line ∧ 0 ∉ line ∧ line.length ≤ 100) →
    readRows left (lines.flatMap (· ++ [newline])) = lines := by
  induction lines with
  | nil =>
    intro left _ _
    cases left <;> rfl
  | cons line lines ih =>
    intro left hleft hlines
    rw [List.length_cons] at hleft
    obtain ⟨left, rfl⟩ : ∃ k, left = k + 1 := ⟨left - 1, by omega⟩
    obtain ⟨hnl, h0, hlen⟩ := hlines line List.mem_cons_self
    have hfile : (line :: lines).flatMap (· ++ [newline])
        = line ++ newline :: lines.flatMap (· ++ [newline]) := by simp
    rw [hfile, readRows, fgets_line hnl _ (by unfold MAX_COLS; omega)]
    dsimp only
    rw [cstrOf_line h0, chomp_line,
      ih left (by omega) fun x hx => hlines x (List.mem_cons_of_mem _ hx)]

/-- The rows of a rectangular map within the limits are read, and the struct holds them. -/
theorem loadMap_bytes_stored (m : MapFile R C) (hR : 1 ≤ R ∧ R ≤ 100) (hC : 1 ≤ C ∧ C ≤ 100)
    (mem : Labyrinth) : ∃ l, loadMap mem (some m.bytes) = some l ∧ l.rows = R ∧ l.cols = C ∧
      Stored ((List.finRange R).map m.line) 0 mem l := by
  have hrows : readRows MAX_ROWS m.bytes = (List.finRange R).map m.line := by
    rw [MapFile.bytes, ← List.flatMap_map m.line (· ++ [newline])]
    have hlen : ((List.finRange R).map m.line).length ≤ MAX_ROWS := by
      rw [List.length_map, List.length_finRange]
      exact hR.2
    refine readRows_lines _ _ hlen fun line hline => ?_
    obtain ⟨i, -, rfl⟩ := List.mem_map.mp hline
    exact ⟨m.newline_not_mem_line i, m.nul_not_mem_line i, (m.length_line i).trans_le hC.2⟩
  have hlong : longest ((List.finRange R).map m.line) = C := by
    apply le_antisymm
    · rw [longest_le_iff]
      intro line hline
      obtain ⟨i, -, rfl⟩ := List.mem_map.mp hline
      exact (m.length_line i).le
    · have hmem : m.line ⟨0, hR.1⟩ ∈ (List.finRange R).map m.line :=
        List.mem_map_of_mem (List.mem_finRange _)
      exact (m.length_line _).symm.le.trans (length_le_longest hmem)
  rcases loadMap_cases mem m.bytes with ⟨hbad, -⟩ | ⟨-, -, l, hload, hl, hcols, hstored⟩
  · rw [hrows, hlong] at hbad
    omega
  · rw [hrows] at hl hcols hstored
    exact ⟨l, hload, by simpa using hl, by rw [hcols, hlong], hstored⟩

theorem MapFile.getElem?_lines (m : MapFile R C) (i : Fin R) :
    ((List.finRange R).map m.line)[i.val]? = some (m.line i) := by simp

theorem MapFile.getElem?_line (m : MapFile R C) (i : Fin R) (j : Fin C) :
    (m.line i)[j.val]? = some (m.cell i j) := by simp [MapFile.line]

/-- A stored map has its characters at their offsets. -/
theorem Stored.map_eq_cell {m : MapFile R C} {mem l : Labyrinth}
    (h : Stored ((List.finRange R).map m.line) 0 mem l) (i : Fin R) (j : Fin C) :
    l.map (i.val * 100 + j.val) = m.cell i j := by
  have hchar := h.char i.val (m.line i) (m.getElem?_lines i) j.val _ (m.getElem?_line i j)
  rw [Nat.zero_add] at hchar
  exact hchar

/-- **`loadMap` accepts a rectangular map within the limits**, whatever the struct held. -/
theorem loadMap_bytes (m : MapFile R C) (hR : 1 ≤ R ∧ R ≤ 100) (hC : 1 ≤ C ∧ C ≤ 100)
    (mem : Labyrinth) : ∃ l, loadMap mem (some m.bytes) = some l ∧ Loaded m l := by
  obtain ⟨l, hload, hrows, hcols, hstored⟩ := loadMap_bytes_stored m hR hC mem
  refine ⟨l, hload, hrows, hcols, fun i j => ?_⟩
  rw [cell, offset_natCast]
  exact hstored.map_eq_cell i j

/-- The table of a struct, for cells that are neither NUL nor newline. -/
def MapFile.ofLabyrinth (R C : ℕ) (l : Labyrinth)
    (h : ∀ (i : Fin R) (j : Fin C), l.cell (i.val : ℤ) (j.val : ℤ) ≠ 0 ∧
      l.cell (i.val : ℤ) (j.val : ℤ) ≠ newline) : MapFile R C where
  cell i j := l.cell (i.val : ℤ) (j.val : ℤ)
  plain := h

/-- **`saveMap` writes the file of the map that the struct holds.** -/
theorem saveMap_eq_bytes {m : MapFile R C} {l : Labyrinth} (h : Loaded m l) :
    l.saveMap = m.bytes := by
  unfold saveMap MapFile.bytes MapFile.line
  rw [h.rows_eq, h.cols_eq, Int.toNat_natCast, Int.toNat_natCast]
  simp only [← List.map_coe_finRange_eq_range, List.flatMap_map, List.map_map]
  congr 1
  funext i
  congr 2
  funext j
  exact h.cell_eq i j

/-- Two structs that hold one map have the same cells. -/
theorem Loaded.get_eq {m : MapFile R C} {l l' : Labyrinth} (h : Loaded m l) (h' : Loaded m l')
    {q : Position} (hq : l.Inside q) : l'.get q = l.get q := by
  obtain ⟨row, col⟩ := q
  obtain ⟨h1, h2, h3, h4⟩ := hq
  rw [h.rows_eq] at h2
  rw [h.cols_eq] at h4
  obtain ⟨i, rfl⟩ := Int.eq_ofNat_of_zero_le h1
  obtain ⟨j, rfl⟩ := Int.eq_ofNat_of_zero_le h3
  have hi : i < R := Int.ofNat_lt.mp h2
  have hj : j < C := Int.ofNat_lt.mp h4
  exact (h'.cell_eq ⟨i, hi⟩ ⟨j, hj⟩).trans (h.cell_eq ⟨i, hi⟩ ⟨j, hj⟩).symm

/-- **Saving undoes loading, and loading undoes saving**, on every rectangular map up to the full
size and whatever the two structs held before. -/
theorem saveMap_loadMap (m : MapFile R C) (hR : 1 ≤ R ∧ R ≤ 100) (hC : 1 ≤ C ∧ C ≤ 100)
    (mem : Labyrinth) : ∃ l, loadMap mem (some m.bytes) = some l ∧ l.saveMap = m.bytes ∧
      ∀ mem', ∃ l', loadMap mem' (some l.saveMap) = some l' ∧ l'.rows = l.rows ∧
        l'.cols = l.cols ∧ ∀ q, l.Inside q → l'.get q = l.get q := by
  obtain ⟨l, hload, hl⟩ := loadMap_bytes m hR hC mem
  have hsave := saveMap_eq_bytes hl
  refine ⟨l, hload, hsave, fun mem' => ?_⟩
  obtain ⟨l', hload', hl'⟩ := loadMap_bytes m hR hC mem'
  refine ⟨l', by rw [hsave, hload'], ?_, ?_, fun q hq => hl.get_eq hl' hq⟩
  · rw [hl.rows_eq, hl'.rows_eq]
  · rw [hl.cols_eq, hl'.cols_eq]

/-- A map of dots. -/
def MapFile.dots (R C : ℕ) : MapFile R C where
  cell _ _ := dot
  plain _ _ := by decide

theorem saveMap_loadMap_full :
    ∃ l, loadMap ⟨fun _ => 0, 0, 0⟩ (some (MapFile.dots 100 100).bytes) = some l ∧
      l.saveMap = (MapFile.dots 100 100).bytes := by
  obtain ⟨l, hload, hsave, -⟩ :=
    saveMap_loadMap (MapFile.dots 100 100) (by decide) (by decide) ⟨fun _ => 0, 0, 0⟩
  exact ⟨l, hload, hsave⟩

end Labyrinth

end Jyyos
