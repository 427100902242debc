import Jyyos.Lines
import Jyyos.Sh.Main
import Mathlib.Tactic.Common

/-!
# One line is one command, if it fits into the buffer

`getcmd` stops at a newline or when the buffer is full, and does not say which.  A line that fits is
handed on whole (`main_line`).  Of a longer line `getcmd` hands on as much as there is room for, and
the rest is a line of its own for the next call (`main_long`), so that more texts are handed on than
there are lines (`length_main`).
-/

namespace Jyyos.Sh

/-- What is to be handed on for a line. -/
def command (line : CStr) : Handed :=
  if cstr ['c', 'd', ' '] <+: line then .chdir (line.drop 3) else .parsecmd (line ++ [newline])

/-! ### `getcmd` -/

theorem set_replicate_zero (pre : List UInt8) (k : ℕ) (c : UInt8) :
    (pre ++ List.replicate (k + 1) 0).set pre.length c = (pre ++ [c]) ++ List.replicate k 0 := by
  rw [List.set_append_right _ _ (Nat.le_refl _), Nat.sub_self, List.replicate_succ,
    List.set_cons_zero, List.append_assoc]
  rfl

/-- A line that fits is read with its newline. -/
theorem getcmdLoop_line {line : List UInt8} (rest : List UInt8) (h : newline ∉ line) :
    ∀ (pre : List UInt8) (k : ℕ), getcmdLoop (line.length + k + 2) pre.length
        (pre ++ List.replicate (line.length + k + 2) 0) (line ++ newline :: rest) =
      (some (pre ++ line ++ newline :: List.replicate (k + 1) 0), rest) := by
  induction line with
  | nil =>
    intro pre k
    rw [List.length_nil, Nat.zero_add, List.nil_append, getcmdLoop, if_pos rfl,
      set_replicate_zero, List.append_nil, List.append_assoc]
    rfl
  | cons c line ih =>
    intro pre k
    rw [List.mem_cons, not_or] at h
    have hlen : (c :: line).length + k + 2 = (line.length + k + 1) + 2 := by
      rw [List.length_cons]
      omega
    rw [hlen, List.cons_append, getcmdLoop, if_neg (Ne.symm h.1), set_replicate_zero]
    have hnext := ih h.2 (pre ++ [c]) k
    rw [List.length_append, List.length_singleton] at hnext
    rw [hnext, List.append_assoc pre]
    rfl

/-- Characters that fill the buffer are read without looking further. -/
theorem getcmdLoop_long {chunk : List UInt8} (rest : List UInt8) (h : newline ∉ chunk) :
    ∀ pre : List UInt8, getcmdLoop (chunk.length + 1) pre.length
        (pre ++ List.replicate (chunk.length + 1) 0) (chunk ++ rest) =
      (some (pre ++ chunk ++ [0]), rest) := by
  induction chunk with
  | nil =>
    intro pre
    rw [List.append_nil]
    rfl
  | cons c chunk ih =>
    intro pre
    rw [List.mem_cons, not_or] at h
    rw [List.length_cons, List.cons_append, getcmdLoop, if_neg (Ne.symm h.1), set_replicate_zero]
    have hnext := ih h.2 (pre ++ [c])
    rw [List.length_append, List.length_singleton] at hnext
    rw [hnext, List.append_assoc pre]
    rfl

/-! ### `main` -/

theorem main_nil : main [] = [] := by
  rw [main]
  rfl

theorem main_cons {stdin buf rest : List UInt8} (h : getcmd bufSize stdin = (some buf, rest)) :
    main stdin = handOn buf :: main rest := by
  rw [main]
  split
  · rename_i hnone
    rw [h] at hnone
    cases hnone
  · rename_i buf' hsome
    rw [h] at hsome
    cases hsome
    rw [h]

theorem cstrOf_append_zero {s : List UInt8} (h : 0 ∉ s) (rest : List UInt8) :
    cstrOf (s ++ 0 :: rest) = s := by
  rw [cstrOf, List.takeWhile_append_of_pos]
  · rw [List.takeWhile_cons_of_neg (by decide), List.append_nil]
  · intro c hc
    rw [bne_iff_ne]
    rintro rfl
    exact h hc

/-- The test of the first three characters: the newline is none of them. -/
theorem isCd_iff (line rest : List UInt8) :
    ((line ++ newline :: rest).getD 0 0 = 'c'.toUInt8 ∧
      (line ++ newline :: rest).getD 1 0 = 'd'.toUInt8 ∧
      (line ++ newline :: rest).getD 2 0 = ' '.toUInt8) ↔ cstr ['c', 'd', ' '] <+: line := by
  have hc : newline ≠ 'c'.toUInt8 := by decide
  have hd : newline ≠ 'd'.toUInt8 := by decide
  have hblank : newline ≠ ' '.toUInt8 := by decide
  rcases line with - | ⟨a, - | ⟨b, - | ⟨c, line⟩⟩⟩
  · simp [hc, cstr]
  · simp [hd, cstr]
  · simp [hblank, cstr]
  · simp [cstr, List.cons_prefix_cons, eq_comm]

/-- A buffer with a whole line in it. -/
theorem handOn_line {line : CStr} (h0 : 0 ∉ line) (k : ℕ) :
    handOn (line ++ newline :: List.replicate (k + 1) 0) = command line := by
  have hcstr : cstrOf (line ++ newline :: List.replicate (k + 1) 0) = line ++ [newline] := by
    rw [List.replicate_succ, List.append_cons]
    refine cstrOf_append_zero ?_ _
    rw [List.mem_append, not_or]
    exact ⟨h0, by decide⟩
  unfold handOn command
  by_cases hcd : cstr ['c', 'd', ' '] <+: line
  · have hthree : 3 ≤ line.length := hcd.length_le
    rw [if_pos ((isCd_iff ..).mpr hcd), if_pos hcd, hcstr, List.length_append,
      List.length_singleton, Nat.add_sub_cancel, List.set_append_right _ _ (Nat.le_refl _),
      Nat.sub_self, List.set_cons_zero]
    dsimp only
    rw [List.drop_append_of_le_length hthree, cstrOf_append_zero]
    exact fun hmem => h0 (List.mem_of_mem_drop hmem)
  · rw [if_neg fun h => hcd ((isCd_iff ..).mp h), if_neg hcd, hcstr]

/-- **A line that fits is handed on whole.** -/
theorem main_line {line : CStr} (hline : newline ∉ line) (h0 : 0 ∉ line)
    (hshort : line.length < 99) (rest : List UInt8) :
    main (line ++ newline :: rest) = command line :: main rest := by
  have hsize : bufSize = line.length + (98 - line.length) + 2 := by
    rw [bufSize]
    omega
  have hget := getcmdLoop_line rest hline [] (98 - line.length)
  rw [List.nil_append, ← hsize] at hget
  rw [main_cons hget, List.nil_append, handOn_line h0]

/-- **Of a longer line the rest is left** as a line of its own. -/
theorem main_long {chunk : CStr} (hchunk : newline ∉ chunk) (hlen : chunk.length = 99)
    (rest : List UInt8) : main (chunk ++ rest) = handOn (chunk ++ [0]) :: main rest := by
  have hsize : bufSize = chunk.length + 1 := by rw [hlen, bufSize]
  have hget := getcmdLoop_long rest hchunk []
  rw [List.nil_append, ← hsize] at hget
  rw [main_cons hget, List.nil_append]

/-! ### Lines and texts -/

/-- Every line ends with a newline. -/
def Terminated (stdin : List UInt8) : Prop := ∀ c ∈ stdin.getLast?, c = newline

theorem Terminated.of_append {s t : List UInt8} (h : Terminated (s ++ t)) : Terminated t := by
  intro c hc
  exact h c (by rw [List.getLast?_append, Option.mem_def.mp hc, Option.some_or]; rfl)

/-- An input begins with a line. -/
theorem Terminated.cases {stdin : List UInt8} (h : Terminated stdin) :
    stdin = [] ∨ ∃ line rest, stdin = line ++ newline :: rest ∧ newline ∉ line ∧
      Terminated rest := by
  rcases List.eq_nil_or_concat stdin with rfl | ⟨s, c, rfl⟩
  · exact Or.inl rfl
  · rw [List.concat_eq_append] at h ⊢
    have hc : c = newline := h c (by simp)
    have hmem : newline ∈ s ++ [c] := by simp [hc]
    obtain ⟨line, rest, heq, hline⟩ := List.eq_append_cons_of_mem hmem
    refine Or.inr ⟨line, rest, heq, hline, ?_⟩
    rw [heq, List.append_cons] at h
    exact h.of_append

/-- Lines that fit are handed on one by one. -/
theorem main_eq_map_command (n : ℕ) : ∀ stdin : List UInt8, stdin.length ≤ n → Terminated stdin →
    0 ∉ stdin → (∀ line ∈ linesOf stdin, line.length < 99) →
    main stdin = (linesOf stdin).map command := by
  induction n with
  | zero =>
    intro stdin hn _ _ _
    rw [List.length_eq_zero_iff.mp (Nat.le_zero.mp hn)]
    exact main_nil
  | succ n ih =>
    intro stdin hn hend h0 hshort
    rcases hend.cases with rfl | ⟨line, rest, rfl, hline, hrest⟩
    · exact main_nil
    · rw [linesOf_append hline] at hshort ⊢
      rw [List.mem_append, List.mem_cons, not_or, not_or] at h0
      rw [List.length_append, List.length_cons] at hn
      rw [main_line hline h0.1 (hshort line List.mem_cons_self), List.map_cons,
        ih rest (by omega) hrest h0.2.2 fun l hl => hshort l (List.mem_cons_of_mem _ hl)]

/-- There are at least as many texts as lines, and more if a line does not fit. -/
theorem length_main (n : ℕ) : ∀ stdin : List UInt8, stdin.length ≤ n → Terminated stdin →
    0 ∉ stdin → (linesOf stdin).length ≤ (main stdin).length ∧
      ((main stdin).length ≤ (linesOf stdin).length →
        ∀ line ∈ linesOf stdin, line.length < 99) := by
  induction n with
  | zero =>
    intro stdin hn _ _
    rw [List.length_eq_zero_iff.mp (Nat.le_zero.mp hn)]
    exact ⟨Nat.zero_le _, nofun⟩
  | succ n ih =>
    intro stdin hn hend h0
    rcases hend.cases with rfl | ⟨line, rest, rfl, hline, hrest⟩
    · exact ⟨Nat.zero_le _, nofun⟩
    · have h0' := h0
      rw [List.mem_append, List.mem_cons, not_or, not_or] at h0'
      rw [linesOf_append hline, List.length_cons]
      rw [List.length_append, List.length_cons] at hn
      by_cases hshort : line.length < 99
      · obtain ⟨hle, hall⟩ := ih rest (by omega) hrest h0'.2.2
        rw [main_line hline h0'.1 hshort, List.length_cons]
        refine ⟨Nat.succ_le_succ hle, fun hlen l hl => ?_⟩
        rcases List.mem_cons.mp hl with rfl | hl
        · exact hshort
        · exact hall (Nat.le_of_succ_le_succ hlen) l hl
      -- the rest of the line is a line for the next call
      · have hsplit : line ++ newline :: rest =
            line.take 99 ++ (line.drop 99 ++ newline :: rest) := by
          rw [← List.append_assoc, List.take_append_drop]
        have hdrop : newline ∉ line.drop 99 := fun hmem => hline (List.mem_of_mem_drop hmem)
        rw [hsplit] at hend h0 ⊢
        obtain ⟨hle, -⟩ := ih (line.drop 99 ++ newline :: rest)
          (by rw [List.length_append, List.length_drop, List.length_cons]; omega)
          hend.of_append fun hmem => h0 (List.mem_append_right _ hmem)
        rw [linesOf_append hdrop, List.length_cons] at hle
        rw [main_long (fun hmem => hline (List.mem_of_mem_take hmem))
          (by rw [List.length_take]; omega), List.length_cons]
        exact ⟨by omega, fun hlen => by omega⟩

/-- **One line is one command** iff every line fits into the buffer with its newline. -/
theorem main_eq_lines_iff {stdin : List UInt8} (h0 : 0 ∉ stdin) (hend : Terminated stdin) :
    main stdin = (linesOf stdin).map command ↔ ∀ line ∈ linesOf stdin, line.length < 99 := by
  constructor
  · intro h
    have hlen : (main stdin).length = (linesOf stdin).length := by rw [h, List.length_map]
    exact (length_main _ stdin (Nat.le_refl _) hend h0).2 (Nat.le_of_eq hlen)
  · exact main_eq_map_command _ stdin (Nat.le_refl _) hend h0

/-- `cd /` and `ls`. -/
def shortLines : List UInt8 := cstr ['c', 'd', ' ', '/', '\n', 'l', 's', '\n']

theorem main_eq_lines_iff_short : main shortLines = (linesOf shortLines).map command ↔
    ∀ line ∈ linesOf shortLines, line.length < 99 := by
  refine main_eq_lines_iff (by decide) fun c hc => ?_
  exact (Option.some.inj hc).symm

/-- A line of a hundred characters, the newline among them. -/
def longLine : List UInt8 := List.replicate 99 'a'.toUInt8 ++ [newline]

/-- **The newline of a long line is a command of its own.** -/
theorem main_longLine : 0 ∉ longLine ∧ Terminated longLine ∧
    main longLine = [.parsecmd (List.replicate 99 'a'.toUInt8), .parsecmd [newline]] ∧
    main longLine ≠ (linesOf longLine).map command := by
  have hreplicate : ∀ c ≠ 'a'.toUInt8, c ∉ List.replicate 99 'a'.toUInt8 :=
    fun c hc hmem => hc (List.eq_of_mem_replicate hmem)
  have hnewline := hreplicate newline (by decide)
  have hzero := hreplicate 0 (by decide)
  have hmain : main longLine =
      [.parsecmd (List.replicate 99 'a'.toUInt8), .parsecmd [newline]] := by
    have hhand : handOn (List.replicate 99 'a'.toUInt8 ++ [0]) =
        .parsecmd (List.replicate 99 'a'.toUInt8) := by
      rw [handOn, if_neg fun h => absurd h.1 (by decide), cstrOf_append_zero hzero]
    rw [longLine, main_long hnewline List.length_replicate, hhand, ← List.nil_append [newline],
      main_line List.not_mem_nil List.not_mem_nil (by decide), main_nil]
    rfl
  refine ⟨?_, ?_, hmain, ?_⟩
  · rw [longLine, List.mem_append, not_or]
    exact ⟨hzero, by decide⟩
  · intro c hc
    rw [longLine, List.getLast?_concat] at hc
    exact (Option.some.inj hc).symm
  · intro h
    have hlen := congrArg List.length h
    rw [hmain, longLine, linesOf_append hnewline] at hlen
    cases hlen

end Jyyos.Sh
