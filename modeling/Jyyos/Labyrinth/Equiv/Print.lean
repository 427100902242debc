import Jyyos.Labyrinth.Print
import Jyyos.Labyrinth.Equiv.LoadMap

/-!
# Which maps are printed as they are

The printing loop relies on the terminator that `loadMap` stores after each row.  A row of width
100 has no room for it: it falls on the first cell of the next row, which the next row overwrites.
So `printMap_eq_bytes_iff`: a rectangular map is printed as it is iff its width is below 100 or it
has one row only.  In the other cases the first line printed runs on into the second row
(`printMap_ne_bytes`).
-/

namespace Jyyos.Labyrinth

/-! ### The string at an offset -/

theorem byteAt_of_lt (l : Labyrinth) {o : ℕ} (ho : o < 10000) : l.byteAt o = some (l.map o) := by
  have h : o < MAX_ROWS * MAX_COLS := ho
  rw [byteAt, if_pos h]

/-- Characters with a NUL after them are read as a string. -/
theorem stringAt_eq (l : Labyrinth) (s : CStr) : ∀ (fuel o : ℕ), s.length < fuel → 0 ∉ s →
    (∀ j c, s[j]? = some c → l.byteAt (o + j) = some c) → l.byteAt (o + s.length) = some 0 →
    l.stringAt fuel o = some s := by
  induction s with
  | nil =>
    intro fuel o hfuel _ _ hnul
    simp only [List.length_nil, Nat.add_zero] at hfuel hnul
    obtain ⟨fuel, rfl⟩ : ∃ k, fuel = k + 1 := ⟨fuel - 1, by omega⟩
    rw [stringAt, hnul]
    rfl
  | cons b s ih =>
    intro fuel o hfuel h0 hchar hnul
    rw [List.length_cons] at hfuel hnul
    obtain ⟨fuel, rfl⟩ : ∃ k, fuel = k + 1 := ⟨fuel - 1, by omega⟩
    rw [List.mem_cons, not_or] at h0
    have hb : l.byteAt o = some b := hchar 0 b rfl
    have hrest : l.stringAt fuel (o + 1) = some s := by
      apply ih fuel (o + 1) (by omega) h0.2
      · intro j c hj
        rw [show o + 1 + j = o + (j + 1) by omega]
        exact hchar (j + 1) c hj
      · rw [show o + 1 + s.length = o + (s.length + 1) by omega]
        exact hnul
    have hne : b ≠ 0 := fun h => h0.1 h.symm
    rw [stringAt, hb]
    simp only [hne, ↓reduceIte, hrest, Option.map_some]

/-- A string goes on as long as no byte is NUL. -/
theorem getElem?_stringAt (l : Labyrinth) (fuel : ℕ) : ∀ (o : ℕ) (s : CStr),
    l.stringAt fuel o = some s → ∀ n, (∀ j ≤ n, l.byteAt (o + j) ≠ some 0) →
    s[n]? = l.byteAt (o + n) := by
  induction fuel with
  | zero => intro o s h; cases h
  | succ fuel ih =>
    intro o s h n hne
    rw [stringAt] at h
    cases hb : l.byteAt o with
    | none => rw [hb] at h; cases h
    | some b =>
      have hb0 : b ≠ 0 := by
        rintro rfl
        exact hne 0 (Nat.zero_le n) hb
      rw [hb] at h
      simp only [hb0, ↓reduceIte, Option.map_eq_some_iff] at h
      obtain ⟨s, hs, rfl⟩ := h
      cases n with
      | zero => exact hb.symm
      | succ n =>
        rw [List.getElem?_cons_succ, show o + (n + 1) = o + 1 + n by omega]
        apply ih (o + 1) s hs n
        intro j hj
        rw [show o + 1 + j = o + (j + 1) by omega]
        exact hne (j + 1) (by omega)

/-! ### Maps printed as they are -/

variable {R C : ℕ}

/-- If every row is the string at its offset, the loop prints the rows. -/
theorem printRows_eq (l : Labyrinth) (m : MapFile R C) (is : List (Fin R))
    (h : ∀ i : Fin R, l.stringAt structSize (i.val * MAX_COLS) = some (m.line i)) :
    l.printRows (is.map Fin.val) = some (is.flatMap fun i => m.line i ++ [newline]) := by
  induction is with
  | nil => rfl
  | cons i is ih =>
    rw [List.map_cons, printRows, h i]
    simp only [ih, Option.map_some, List.flatMap_cons, List.append_assoc, List.singleton_append]

theorem printMap_eq_bytes {l : Labyrinth} {m : MapFile R C} (hrows : l.rows = R)
    (h : ∀ i : Fin R, l.stringAt structSize (i.val * MAX_COLS) = some (m.line i)) :
    l.printMap = some m.bytes := by
  rw [printMap, hrows, Int.toNat_natCast, ← List.map_coe_finRange_eq_range]
  exact printRows_eq l m _ h

/-- The first line of the file ends at its width. -/
theorem MapFile.getElem?_bytes (m : MapFile R C) (hR : 0 < R) : m.bytes[C]? = some newline := by
  obtain ⟨R, rfl⟩ : ∃ k, R = k + 1 := ⟨R - 1, by omega⟩
  have hlen := m.length_line 0
  rw [MapFile.bytes, List.finRange_succ, List.flatMap_cons, List.append_assoc,
    List.getElem?_append_right hlen.le, hlen, Nat.sub_self]
  rfl

section Stored

variable {m : MapFile R C} {mem l : Labyrinth}
variable (hstored : Stored ((List.finRange R).map m.line) 0 mem l) (hR : R ≤ 100) (hC : C ≤ 100)
include hstored hR hC

theorem byteAt_row (i : Fin R) (j : Fin C) :
    l.byteAt (i.val * 100 + j.val) = some (m.cell i j) := by
  rw [byteAt_of_lt _ (by omega), hstored.map_eq_cell]

/-- A stored row that is followed by a NUL is the string at its offset. -/
theorem stringAt_row (i : Fin R) (hnul : l.byteAt (i.val * 100 + C) = some 0) :
    l.stringAt structSize (i.val * MAX_COLS) = some (m.line i) := by
  apply stringAt_eq
  · rw [m.length_line]
    have : structSize = 10008 := rfl
    omega
  · exact m.nul_not_mem_line i
  · intro j c hj
    have hjC : j < C := by
      rw [← m.length_line i]
      exact (List.getElem?_eq_some_iff.mp hj).1
    rw [m.getElem?_line i ⟨j, hjC⟩] at hj
    rw [← hj]
    exact byteAt_row hstored hR hC i ⟨j, hjC⟩
  · rw [m.length_line]
    exact hnul

/-- In a narrow map the terminator of a row lies within the row. -/
theorem byteAt_terminator (hlt : C < 100) (i : Fin R) : l.byteAt (i.val * 100 + C) = some 0 := by
  have h := hstored.nul i.val (m.line i) (m.getElem?_lines i) (by rw [m.length_line]; exact hlt)
  rw [Nat.zero_add, m.length_line] at h
  rw [byteAt_of_lt _ (by omega), h]

/-- In a map of width 100 the bytes 0, …, 99 are the first row and byte 100 is the first cell of the
second. -/
theorem byteAt_wide (hwide : C = 100) (htwo : 2 ≤ R) {j : ℕ} (hj : j ≤ 100) :
    ∃ c, l.byteAt (0 + j) = some c ∧ c ≠ 0 ∧ c ≠ newline := by
  rcases Nat.lt_or_eq_of_le hj with hlt | rfl
  · have hc := byteAt_row hstored hR hC ⟨0, by omega⟩ ⟨j, by omega⟩
    rw [Nat.zero_mul] at hc
    exact ⟨_, hc, m.plain _ _⟩
  · have hc := byteAt_row hstored hR hC ⟨1, by omega⟩ ⟨0, by omega⟩
    exact ⟨_, hc, m.plain _ _⟩

/-- **Two rows of width 100 are not printed as they are**: the first line goes on with the second
row. -/
theorem printMap_ne_bytes (hrows : l.rows = R) (hwide : C = 100) (htwo : 2 ≤ R) :
    l.printMap ≠ some m.bytes := by
  have hnul : ∀ j ≤ 100, l.byteAt (0 + j) ≠ some 0 := by
    intro j hj h0
    obtain ⟨c, hc, hne, -⟩ := byteAt_wide hstored hR hC hwide htwo hj
    rw [h0] at hc
    exact hne (Option.some.inj hc).symm
  obtain ⟨c, hc, -, hne⟩ := byteAt_wide hstored hR hC hwide htwo (le_refl 100)
  have hfile := m.getElem?_bytes (show 0 < R by omega)
  intro h
  obtain ⟨R, rfl⟩ : ∃ k, R = k + 1 := ⟨R - 1, by omega⟩
  rw [printMap, hrows, Int.toNat_natCast, List.range_succ_eq_map, printRows, Nat.zero_mul] at h
  cases hs : l.stringAt structSize 0 with
  | none => rw [hs] at h; cases h
  | some s =>
    have hget := getElem?_stringAt l structSize 0 s hs 100 hnul
    rw [hc] at hget
    rw [hs] at h
    simp only [Option.map_eq_some_iff] at h
    obtain ⟨out, -, hout⟩ := h
    rw [← hout, hwide, List.getElem?_append_left (List.getElem?_eq_some_iff.mp hget).1,
      hget] at hfile
    exact hne (Option.some.inj hfile)

end Stored

/-- The loop of `loadMap` on a file of one line. -/
theorem loadLoop_one_line {s : CStr} (hnl : newline ∉ s) (h0 : 0 ∉ s) (hlen : s.length ≤ 100)
    (left rows maxCols : ℕ) (l : Labyrinth) :
    (loadLoop (left + 2) (s ++ [newline]) rows maxCols l).2.2 =
      (l.strncpy (rows * 100) s).store (rows * 100 + s.length) 0 := by
  rw [loadLoop, fgets_line hnl [] (by unfold MAX_COLS; omega)]
  simp only [loadRow, cstrOf_line h0, chomp_line]
  rw [loadLoop]
  rfl

/-- The terminator of the only row stays. -/
theorem byteAt_one_row {m : MapFile 1 C} {mem l : Labyrinth} (hC : C ≤ 100)
    (hload : loadMap mem (some m.bytes) = some l) : l.byteAt C = some 0 := by
  have hbytes : m.bytes = m.line 0 ++ [newline] := by
    simp [MapFile.bytes, List.finRange_succ]
  have hmap : l.map = (loadLoop MAX_ROWS m.bytes 0 0 mem).2.2.map := by
    unfold loadMap at hload
    simp only at hload
    split_ifs at hload
    rw [← Option.some.inj hload]
  rw [byteAt_of_lt _ (by omega), hmap, hbytes, MAX_ROWS, loadLoop_one_line
    (m.newline_not_mem_line 0) (m.nul_not_mem_line 0) (by rw [m.length_line]; exact hC),
    m.length_line, map_store (by omega), Nat.zero_mul, Nat.zero_add, Function.update_self]

/-- **When a map is printed as it is**: within the limits, iff its rows leave room for their
terminators or there is one row only. -/
theorem printMap_eq_bytes_iff (m : MapFile R C) (hR : 1 ≤ R ∧ R ≤ 100) (hC : 1 ≤ C ∧ C ≤ 100)
    (mem : Labyrinth) : ∃ l, loadMap mem (some m.bytes) = some l ∧
      (l.printMap = some m.bytes ↔ C < 100 ∨ R = 1) := by
  obtain ⟨l, hload, hrows, -, hstored⟩ := loadMap_bytes_stored m hR hC mem
  refine ⟨l, hload, fun h => ?_, ?_⟩
  · by_contra hcon
    exact printMap_ne_bytes hstored hR.2 hC.2 hrows (by omega) (by omega) h
  · rintro (hlt | rfl)
    · apply printMap_eq_bytes hrows
      intro i
      exact stringAt_row hstored hR.2 hC.2 i (byteAt_terminator hstored hR.2 hC.2 hlt i)
    · apply printMap_eq_bytes hrows
      intro i
      obtain rfl : i = 0 := Subsingleton.elim _ _
      apply stringAt_row hstored hR.2 hC.2
      rw [Fin.val_zero, Nat.zero_mul, Nat.zero_add]
      exact byteAt_one_row hC.2 hload

theorem printMap_eq_bytes_iff_narrow : ∃ l,
    loadMap ⟨fun _ => 0, 0, 0⟩ (some (MapFile.dots 100 99).bytes) = some l ∧
      l.printMap = some (MapFile.dots 100 99).bytes := by
  obtain ⟨l, hload, hprint⟩ :=
    printMap_eq_bytes_iff (MapFile.dots 100 99) (by decide) (by decide) ⟨fun _ => 0, 0, 0⟩
  exact ⟨l, hload, hprint.mpr (Or.inl (by decide))⟩

/-- Two rows of 100 dots are not printed as they are. -/
theorem printMap_two_full_rows : ∃ l,
    loadMap ⟨fun _ => 0, 0, 0⟩ (some (MapFile.dots 2 100).bytes) = some l ∧
      l.printMap ≠ some (MapFile.dots 2 100).bytes := by
  obtain ⟨l, hload, hrows, -, hstored⟩ :=
    loadMap_bytes_stored (MapFile.dots 2 100) (by decide) (by decide) ⟨fun _ => 0, 0, 0⟩
  exact ⟨l, hload, printMap_ne_bytes hstored (by decide) (by decide) hrows rfl (by decide)⟩

end Jyyos.Labyrinth
