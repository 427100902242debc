import Jyyos.Labyrinth.Dfs
import Jyyos.Labyrinth.Equiv.Walk

/-!
# What `dfs` marks, and what it touches

`dfs_spec`: on a map that fits the array, `dfs` returns from any cell of the map and any marks, it
accesses only cells of the two arrays, and it marks the ends of the paths of open cells without a
mark.  The marks come from `Dfs.search_spec`.  For the accesses, the search with the record is the
search (`dfsLog_spec`), and everything it adds to the record is in bounds: the start is, and a
neighbour is looked at in `visited` only after the range check of `isEmptySpaceorUser`.
-/

namespace Jyyos.Labyrinth

variable {l : Labyrinth}

/-! ### The accesses -/

theorem inBounds_of_inside (hl : l.Fits) {row col : ℤ} (h : l.Inside ⟨row, col⟩) :
    0 ≤ row ∧ row < MAX_ROWS ∧ 0 ≤ col ∧ col < MAX_COLS := by
  obtain ⟨h1, h2, h3, h4⟩ := h
  obtain ⟨h5, h6⟩ := hl
  simp only [MAX_ROWS, MAX_COLS] at h1 h2 h3 h4 ⊢
  omega

/-- The open-cell test reads the map only where it is. -/
theorem inBounds_of_mem_openReads (hl : l.Fits) {row col : ℤ} {a : Access}
    (ha : a ∈ l.openReads row col) : a.InBounds := by
  unfold openReads at ha
  split_ifs at ha with hout hdot
  · cases ha
  · have hin : 0 ≤ row ∧ row < l.rows ∧ 0 ≤ col ∧ col < l.cols := by omega
    rw [List.mem_singleton.mp ha]
    exact inBounds_of_inside hl ⟨hin.1, hin.2.1, hin.2.2.1, hin.2.2.2⟩
  · have hin : 0 ≤ row ∧ row < l.rows ∧ 0 ≤ col ∧ col < l.cols := by omega
    have hmap : a = .map row col := by simpa using ha
    rw [hmap]
    exact inBounds_of_inside hl ⟨hin.1, hin.2.1, hin.2.2.1, hin.2.2.2⟩

/-- The recorded result `r` goes with the marks: dropping the record gives them, and nothing out
of bounds is added to `log`. -/
structure Logged (visited : Option Visited) (log : List Access)
    (r : Option (Visited × List Access)) : Prop where
  marks : r.map Prod.fst = visited
  inBounds : ∀ s, r = some s → (∀ a ∈ log, a.InBounds) → ∀ a ∈ s.2, a.InBounds

theorem Logged.some (visited : Visited) {log log' : List Access}
    (h : (∀ a ∈ log, a.InBounds) → ∀ a ∈ log', a.InBounds) :
    Logged (some visited) log (some (visited, log')) := by
  refine ⟨rfl, fun s hs => ?_⟩
  obtain rfl := Option.some.inj hs
  exact h

theorem Logged.bind {visited : Option Visited} {log : List Access}
    {r : Option (Visited × List Access)} {f : Visited → Option Visited}
    {g : Visited × List Access → Option (Visited × List Access)} (h : Logged visited log r)
    (hfg : ∀ visited log, Logged (f visited) log (g (visited, log))) :
    Logged (visited >>= f) log (r >>= g) := by
  obtain ⟨hmarks, hin⟩ := h
  cases r with
  | none =>
    rw [← hmarks]
    exact ⟨rfl, nofun⟩
  | some s =>
    obtain ⟨v, log'⟩ := s
    rw [← hmarks]
    refine ⟨(hfg v log').marks, fun s hs hlog => ?_⟩
    exact (hfg v log').inBounds s hs (hin _ rfl hlog)

theorem Logged.foldlM {α : Type} {f : Visited → α → Option Visited}
    {g : Visited × List Access → α → Option (Visited × List Access)}
    (hfg : ∀ visited log a, Logged (f visited a) log (g (visited, log) a)) (as : List α) :
    ∀ visited log, Logged (as.foldlM f visited) log (as.foldlM g (visited, log)) := by
  induction as with
  | nil => exact fun visited log => Logged.some visited fun h => h
  | cons a as ih =>
    intro visited log
    rw [List.foldlM_cons, List.foldlM_cons]
    exact (hfg visited log a).bind ih

/-- More accesses in bounds before the rest. -/
theorem Logged.append {visited : Option Visited} {log new : List Access}
    {r : Option (Visited × List Access)} (h : Logged visited (log ++ new) r)
    (hnew : ∀ a ∈ new, a.InBounds) : Logged visited log r := by
  refine ⟨h.marks, fun s hs hlog => h.inBounds s hs fun a ha => ?_⟩
  rcases List.mem_append.mp ha with ha | ha
  · exact hlog a ha
  · exact hnew a ha

/-- **The search with the record is the search**, and what it records is in bounds. -/
theorem dfsLog_spec (hl : l.Fits) (fuel : ℕ) : ∀ {row col : ℤ} (visited : Visited)
    (log : List Access), l.Inside ⟨row, col⟩ →
    Logged (l.dfs fuel row col visited) log (l.dfsLog fuel row col (visited, log)) := by
  induction fuel with
  | zero => exact fun visited log _ => ⟨rfl, nofun⟩
  | succ fuel ih =>
    intro row col visited log hin
    rw [dfs, dfsLog]
    have hstart : ∀ a ∈ [Access.visited row col], a.InBounds := by
      intro a ha
      rw [List.mem_singleton.mp ha]
      exact inBounds_of_inside hl hin
    refine Logged.append ?_ hstart
    refine Logged.foldlM (fun visited log d => ?_) directions _ _
    dsimp only
    have hreads : ∀ a ∈ l.openReads (row + d.1) (col + d.2), a.InBounds :=
      fun a ha => inBounds_of_mem_openReads hl ha
    refine Logged.append ?_ hreads
    cases hopen : l.isEmptySpaceorUser (row + d.1) (col + d.2) with
    | false =>
      -- a cell that is out of range or closed is not looked at in `visited`
      simp only [Bool.false_and, Bool.false_eq_true, ↓reduceIte]
      exact Logged.some visited fun h => h
    | true =>
      have hnew : l.Inside ⟨row + d.1, col + d.2⟩ :=
        ((isEmptySpaceorUser_iff l ⟨row + d.1, col + d.2⟩).mp hopen).1
      have hread : ∀ a ∈ [Access.visited (row + d.1) (col + d.2)], a.InBounds := by
        intro a ha
        rw [List.mem_singleton.mp ha]
        exact inBounds_of_inside hl hnew
      refine Logged.append ?_ hread
      simp only [Bool.true_and, ↓reduceIte]
      split_ifs
      · exact ih visited _ hnew
      · exact Logged.some visited fun h => h

/-- **`dfs` marks exactly the cells that can be reached.**  On a map that fits the array, from any
cell of the map and with any marks, the search returns; it reads and writes
only cells of the arrays `map` and `visited`; and then a cell is marked iff it was marked before,
is the start, or is reached from it by a path of open cells that were not marked before. -/
theorem dfs_spec (hrows : l.rows ≤ 100) (hcols : l.cols ≤ 100) {start : Position}
    (hin : l.Inside start) (visited : Visited) {fuel : ℕ} (hfuel : 10000 < fuel) :
    ∃ visited' log, l.dfs fuel start.row start.col visited = some visited' ∧
      l.dfsLog fuel start.row start.col (visited, []) = some (visited', log) ∧
      (∀ a ∈ log, a.InBounds) ∧
      ∀ q, visited' q = true ↔ visited q = true ∨ q = start ∨ l.Reached visited start q := by
  have hl : l.Fits := ⟨hrows, hcols⟩
  obtain ⟨visited', hdfs, hmarks⟩ := dfs_marks hl hfuel start visited
  obtain ⟨hlog, hbounds⟩ := dfsLog_spec hl fuel visited [] hin
  rw [hdfs] at hlog
  obtain ⟨⟨v, log⟩, hs, rfl⟩ := Option.map_eq_some_iff.mp hlog
  refine ⟨v, log, hdfs, hs, hbounds _ hs nofun, fun q => ?_⟩
  rw [hmarks]
  constructor
  · rintro (hq | hq)
    · exact Or.inl hq
    · exact Or.inr (Or.inr hq)
  · rintro (hq | rfl | hq)
    · exact Or.inl hq
    · exact Or.inr Relation.ReflTransGen.refl
    · exact Or.inr hq

/-- From the left cell of the map `1.` with no marks. -/
theorem dfs_spec_oneDot : oneDot.Inside ⟨0, 0⟩ ∧
    ∃ visited' log, oneDot.dfs 10001 0 0 (fun _ => false) = some visited' ∧
      oneDot.dfsLog 10001 0 0 (fun _ => false, []) = some (visited', log) ∧
      (∀ a ∈ log, a.InBounds) ∧
      ∀ q, visited' q = true ↔ false = true ∨ q = ⟨0, 0⟩ ∨
        oneDot.Reached (fun _ => false) ⟨0, 0⟩ q :=
  ⟨oneDot_solo.inside, dfs_spec (l := oneDot) (by decide) (by decide) oneDot_solo.inside _
    (by decide)⟩

end Jyyos.Labyrinth
