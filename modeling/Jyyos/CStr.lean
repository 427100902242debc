import Mathlib.Data.List.TakeWhile

/-!
# C strings and line input

What the C programs of the repository use of the C library on strings: a `char` is a `UInt8`, a C
string the list of its characters before the terminating NUL.  `fgets` works on the rest of a
file, `strlen` and `cut` on the buffer that it filled.
-/

namespace Jyyos

/-- A C string: its characters, the terminating NUL left out. -/
abbrev CStr := List UInt8

/-- The C string of a list of ASCII characters. -/
def cstr (s : List Char) : CStr := s.map Char.toUInt8

/-- The newline character. -/
def newline : UInt8 := '\n'.toUInt8

/-- `fgets` with room for `n` characters and the terminator: the characters read, up to and
including the first newline, and the rest of the file; `none` at the end of the file. -/
def fgets (n : ℕ) (file : List UInt8) : Option (List UInt8 × List UInt8) :=
  match file with
  | [] => none
  | _ => some (read n file)
where
  /-- The reading loop. -/
  read : ℕ → List UInt8 → List UInt8 × List UInt8
    | 0, file => ([], file)
    | _ + 1, [] => ([], [])
    | n + 1, c :: file =>
      if c = newline then ([c], file)
      else ((c :: (read n file).1), (read n file).2)

/-- The C string in a buffer: what stands before the first NUL. -/
def cstrOf (buffer : List UInt8) : CStr := buffer.takeWhile (· != 0)

/-- The C string with the newline at its end, if it has one, cut off. -/
def chomp (s : CStr) : CStr :=
  if s.getLast? = some newline then s.dropLast else s

/-! ### A pointer into a string -/

section Drop

variable {s rest : CStr} {c : UInt8} {p : ℕ}

theorem getElem?_of_drop (h : s.drop p = c :: rest) : s[p]? = some c := by
  rw [← List.head?_drop, h]
  rfl

theorem drop_succ_of_drop (h : s.drop p = c :: rest) : s.drop (p + 1) = rest := by
  rw [← List.drop_drop, h]
  rfl

end Drop

/-! ### Reading a line -/

theorem fgets_read_line {line : List UInt8} (hline : newline ∉ line) (rest : List UInt8) :
    ∀ {n : ℕ}, line.length < n →
      fgets.read n (line ++ newline :: rest) = (line ++ [newline], rest) := by
  induction line with
  | nil =>
    intro n hn
    obtain ⟨n, rfl⟩ : ∃ k, n = k + 1 := ⟨n - 1, by simp at hn; omega⟩
    simp [fgets.read]
  | cons c line ih =>
    intro n hn
    obtain ⟨n, rfl⟩ : ∃ k, n = k + 1 := ⟨n - 1, by simp at hn; omega⟩
    rw [List.mem_cons, not_or] at hline
    have hc : c ≠ newline := fun h => hline.1 h.symm
    rw [List.cons_append, fgets.read, if_neg hc,
      ih hline.2 (by simp only [List.length_cons] at hn; omega)]
    rfl

/-- `fgets` reads a line that fits, with its newline. -/
theorem fgets_line {line : List UInt8} (hline : newline ∉ line) (rest : List UInt8) {n : ℕ}
    (hn : line.length < n) :
    fgets n (line ++ newline :: rest) = some (line ++ [newline], rest) := by
  rw [← fgets_read_line hline rest hn]
  cases line <;> rfl

theorem cstrOf_of_not_mem {buffer : List UInt8} (h : 0 ∉ buffer) : cstrOf buffer = buffer := by
  unfold cstrOf
  rw [List.takeWhile_eq_self_iff]
  intro c hc
  simp only [bne_iff_ne, ne_eq]
  rintro rfl
  exact h hc

theorem cstrOf_line {line : List UInt8} (h : 0 ∉ line) :
    cstrOf (line ++ [newline]) = line ++ [newline] := by
  apply cstrOf_of_not_mem
  rw [List.mem_append, not_or]
  exact ⟨h, by decide⟩

theorem chomp_line (line : List UInt8) : chomp (line ++ [newline]) = line := by
  unfold chomp
  rw [if_pos (by simp), List.dropLast_concat]

end Jyyos
