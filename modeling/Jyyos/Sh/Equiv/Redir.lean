import Jyyos.Sh.Equiv.Run

/-!
# The first redirection wins

The parser puts each redirection of a command around the ones before it, and `runcmd` unwraps them
from the outside, so the files are opened in the reverse of their order in the line
(`stepsTo_wrap`).  Each `open` takes the place of the descriptor that was closed before it, and the
one that stays is the first of the line (`openAll_eq`).  A shell is expected to leave the last:
`last_redirection_wins_iff` says when this is the same file.
-/

namespace Jyyos.Sh

/-! ### Redirections -/

section Redir

variable {W : Type}

/-- The descriptor that is redirected. -/
def Redir.fd (r : Redir W) : ℕ := if r.kind = .lt then 0 else 1

/-- How the file is opened. -/
def Redir.mode (r : Redir W) : ℕ :=
  match r.kind with
  | .lt => O_RDONLY
  | .gt => O_WRONLY ||| O_CREAT ||| O_TRUNC
  | _ => O_WRONLY ||| O_CREAT

/-- The first redirection of a descriptor in the line. -/
def firstFor (fd : ℕ) (rs : List (Redir W)) : Option (Redir W) := rs.find? fun r => r.fd = fd

/-- The last one. -/
def lastFor (fd : ℕ) (rs : List (Redir W)) : Option (Redir W) := firstFor fd rs.reverse

/-- The tokens of a simple command or of a block, what it runs, and its redirections in their
order. -/
inductive Command : List (Tok W) → Cmd W → List (Redir W) → Prop
  | block {ts ts' : List (Tok W)} {c : Cmd W} {rs : List (Redir W)} (line : Line ts c)
      (redirs : Redirs ts' rs) : Command (.sym .lpar :: (ts ++ .sym .rpar :: ts')) c rs
  | simple {ts ts' : List (Tok W)} {ws : List W} {rs rs' : List (Redir W)} (redirs : Redirs ts rs)
      (args : Args ts' ws rs') (few : ws.length < MAXARGS) :
      Command (ts ++ ts') (.exec ws) (rs ++ rs')

theorem Command.exec {ts : List (Tok W)} {c : Cmd W} {rs : List (Redir W)}
    (h : Command ts c rs) : Exec ts (wrap c rs) := by
  cases h with
  | block line redirs => exact .block line redirs
  | simple redirs args few => exact .simple redirs args few

theorem Redirs.isRedir {ts : List (Tok W)} {rs : List (Redir W)} (h : Redirs ts rs) :
    ∀ r ∈ rs, r.kind.IsRedir := by
  induction h with
  | nil => nofun
  | cons hk w rest ih =>
    intro r hr
    rcases List.mem_cons.mp hr with rfl | hr
    · exact hk
    · exact ih r hr

theorem Args.isRedir {ts : List (Tok W)} {ws : List W} {rs : List (Redir W)} (h : Args ts ws rs) :
    ∀ r ∈ rs, r.kind.IsRedir := by
  induction h with
  | nil => nofun
  | cons w redirs rest ih =>
    intro r hr
    rcases List.mem_append.mp hr with hr | hr
    · exact redirs.isRedir r hr
    · exact ih r hr

theorem Command.isRedir {ts : List (Tok W)} {c : Cmd W} {rs : List (Redir W)}
    (h : Command ts c rs) : ∀ r ∈ rs, r.kind.IsRedir := by
  cases h with
  | block line redirs => exact redirs.isRedir
  | simple redirs args few =>
    intro r hr
    rcases List.mem_append.mp hr with hr | hr
    · exact redirs.isRedir r hr
    · exact args.isRedir r hr

theorem around_eq {r : Redir W} (h : r.kind.IsRedir) (c : Cmd W) :
    r.around c = .redir c r.file r.mode r.fd := by
  obtain ⟨k, file⟩ := r
  rcases h with h | h | h
  · cases h
    rfl
  · cases h
    rfl
  · cases h
    rfl

theorem fd_le (r : Redir W) : r.fd ≤ 1 := by
  unfold Redir.fd
  split_ifs <;> decide

end Redir

/-! ### Opening the files -/

/-- What the descriptor of a redirection stands for. -/
def Redir.opened (r : Redir CStr) : File := .named r.file r.mode

/-- The descriptors after the files have been opened, the last one first. -/
def openAll (rs : List (Redir CStr)) (fds : Fds) : Fds :=
  rs.foldr (fun r fds => Function.update fds r.fd (some r.opened)) fds

/-- **The first redirection stays.** -/
theorem openAll_eq (rs : List (Redir CStr)) (fds : Fds) (fd : ℕ) :
    openAll rs fds fd = ((firstFor fd rs).map Redir.opened).or (fds fd) := by
  induction rs with
  | nil => rfl
  | cons r rs ih =>
    by_cases hr : r.fd = fd
    · have hfirst : firstFor fd (r :: rs) = some r := by
        rw [firstFor, List.find?_cons_of_pos (by simpa using hr)]
      rw [hfirst, ← hr]
      exact Function.update_self ..
    · have hfirst : firstFor fd (r :: rs) = firstFor fd rs := by
        rw [firstFor, List.find?_cons_of_neg (by simpa using hr)]
        rfl
      rw [hfirst, ← ih]
      exact Function.update_of_ne (Ne.symm hr) ..

theorem isSome_firstFor_reverse (fd : ℕ) (rs : List (Redir CStr)) :
    (lastFor fd rs).isSome = (firstFor fd rs).isSome := by
  rw [lastFor, firstFor, firstFor, Bool.eq_iff_iff, List.find?_isSome, List.find?_isSome]
  simp only [List.mem_reverse]

/-- **The last redirection wins** iff it names the same file as the first. -/
theorem lastWins_iff (rs : List (Redir CStr)) (fds : Fds) :
    (∀ fd r, lastFor fd rs = some r → ∃ mode, openAll rs fds fd = some (.named r.file mode)) ↔
      ∀ fd r r', firstFor fd rs = some r → lastFor fd rs = some r' → r.file = r'.file := by
  constructor
  · intro h fd r r' hfirst hlast
    obtain ⟨mode, hmode⟩ := h fd r' hlast
    rw [openAll_eq, hfirst, Option.map_some, Option.some_or] at hmode
    injection hmode with hmode
    injection hmode
  · intro h fd r' hlast
    obtain ⟨r, hfirst⟩ : ∃ r, firstFor fd rs = some r := by
      rw [← Option.isSome_iff_exists, ← isSome_firstFor_reverse, hlast]
      rfl
    refine ⟨r.mode, ?_⟩
    rw [openAll_eq, hfirst, ← h fd r r' hfirst hlast]
    rfl

/-! ### The steps -/

/-- Exactly `k` steps of a process that makes neither a child nor a pipe. -/
def StepsTo (n : ℕ) : ℕ → Proc → Proc → Prop
  | 0, p, q => q = p
  | k + 1, p, q => ∃ mid, ProcStep n p n [mid] ∧ StepsTo n k mid q

section Steps

variable {n k : ℕ} {fds : Fds} {next : Prog} {q : Proc}

theorem stepsTo_close {fd : ℕ} : StepsTo n (k + 1) ⟨fds, .close fd next⟩ q ↔
    StepsTo n k ⟨Function.update fds fd none, next⟩ q := by
  constructor
  · rintro ⟨mid, hstep, hrest⟩
    cases hstep
    exact hrest
  · exact fun h => ⟨_, .close, h⟩

theorem stepsTo_enter {role : Role} : StepsTo n (k + 1) ⟨fds, .enter role next⟩ q ↔
    StepsTo n k ⟨fds, next⟩ q := by
  constructor
  · rintro ⟨mid, hstep, hrest⟩
    cases hstep
    exact hrest
  · exact fun h => ⟨_, .enter, h⟩

/-- The descriptors below a redirected one are open, if 0 is. -/
theorem ne_none_of_lt (hin : fds 0 ≠ none) {fd : ℕ} (hfd : fd ≤ 1) :
    ∀ i < fd, Function.update fds fd none i ≠ none := by
  intro i hi
  obtain rfl : i = 0 := by omega
  rw [Function.update_of_ne (by omega)]
  exact hin

/-- `open` takes the descriptor that has just been closed. -/
theorem stepsTo_open (hin : fds 0 ≠ none) {fd : ℕ} (hfd : fd ≤ 1) {file : CStr} {mode : ℕ} :
    StepsTo n (k + 1) ⟨Function.update fds fd none, .openFile file mode next⟩ q ↔
      StepsTo n k ⟨Function.update fds fd (some (.named file mode)), next⟩ q := by
  constructor
  · rintro ⟨mid, hstep, hrest⟩
    cases hstep with
    | openFile hlow =>
      obtain rfl := eq_of_lowestFree hlow (Function.update_self ..) (ne_none_of_lt hin hfd)
      rw [Function.update_idem] at hrest
      exact hrest
  · intro h
    have hlow : LowestFree (Function.update fds fd none) fd :=
      ⟨Function.update_self .., fun i hi => not_lt.mp fun hlt => ne_none_of_lt hin hfd i hlt hi⟩
    refine ⟨_, .openFile hlow, ?_⟩
    rw [Function.update_idem]
    exact h

/-- A redirection leaves no descriptor closed. -/
theorem update_ne_none {i : ℕ} (h : fds i ≠ none) (fd : ℕ) (file : File) :
    Function.update fds fd (some file) i ≠ none := by
  by_cases hi : i = fd
  · rw [hi, Function.update_self]
    exact Option.some_ne_none file
  · rw [Function.update_of_ne hi]
    exact h

/-- **The files are opened from the last to the first**, and then the command runs. -/
theorem stepsTo_wrap {c : Cmd CStr} (rs : List (Redir CStr)) : ∀ {fds : Fds}, fds 0 ≠ none →
    (∀ r ∈ rs, r.kind.IsRedir) → (StepsTo n (3 * rs.length) ⟨fds, runcmd (wrap c rs)⟩ q ↔
      q = ⟨openAll rs fds, runcmd c⟩) := by
  induction rs using List.reverseRecOn with
  | nil => exact fun _ _ => Iff.rfl
  | append_singleton rs r ih =>
    intro fds hin hredir
    have hr := hredir r (List.mem_append_right _ (List.mem_singleton_self r))
    have hwrap : wrap c (rs ++ [r]) = .redir (wrap c rs) r.file r.mode r.fd := by
      rw [wrap_append, ← around_eq hr]
      rfl
    have hopen : openAll (rs ++ [r]) fds =
        openAll rs (Function.update fds r.fd (some r.opened)) := by
      rw [openAll, List.foldr_append]
      rfl
    have hlen : 3 * (rs ++ [r]).length = 3 * rs.length + 1 + 1 + 1 := by
      rw [List.length_append, List.length_singleton]
      omega
    rw [hwrap, hopen, hlen, runcmd, stepsTo_close, stepsTo_open hin (fd_le r), stepsTo_enter]
    exact ih (update_ne_none hin r.fd _) fun r' hr' => hredir r' (List.mem_append_left _ hr')

end Steps

/-! ### The parser and `runcmd` together -/

/-- **When the last redirection wins.**  Take a simple command or a block anywhere in a line without
NULs, and a process whose descriptor 0 is open.  The parser reads the command, and the process opens
the files and comes to run it; its descriptors are then those of the last redirections iff these
name the same files as the first. -/
theorem last_redirection_wins_iff {s : CStr} (h0 : 0 ∉ s) {ts rest : List (Tok CStr)}
    {c : Cmd CStr} {rs : List (Redir CStr)} (hcmd : Command ts c rs)
    (hrest : Heads (IsSym [.bar, .amp, .semi, .rpar]) rest) {p : ℕ}
    (htok : tokensAt s p = ts ++ rest) {fuel : ℕ}
    (hfuel : 4 * (tokensAt s p).length + 2 ≤ fuel) {fds : Fds} (hin : fds 0 ≠ none) (n : ℕ) :
    ∃ tree p' fds', parseexec s fuel p = .ok (tree, p') ∧ tokensAt s p' = rest ∧
      (∀ q, StepsTo n (3 * rs.length) ⟨fds, runcmd (tree.map (text s))⟩ q ↔
        q = ⟨fds', runcmd c⟩) ∧
      ((∀ fd r, lastFor fd rs = some r → ∃ mode, fds' fd = some (.named r.file mode)) ↔
        ∀ fd r r', firstFor fd rs = some r → lastFor fd rs = some r' → r.file = r'.file) := by
  have htotal := ((allParse h0 fuel).exec p).total hfuel
  obtain ⟨tree, p', hparse, hdenotes, hp'⟩ :=
    ((allRead h0 fuel).exec hcmd.exec hrest htok).resolve_left htotal
  refine ⟨tree, p', openAll rs fds, hparse, hp', fun q => ?_, lastWins_iff rs fds⟩
  rw [hdenotes.text]
  exact stepsTo_wrap rs hin hcmd.isRedir

theorem terminal_ne_none : terminal 0 ≠ none := (standard_terminal 0).mpr (by decide)

/-- The line `a>b<c>b`. -/
def threeRedirs : CStr := cstr ['a', '>', 'b', '<', 'c', '>', 'b']

/-- Its redirections. -/
def redirsOfA : List (Redir CStr) := [⟨.gt, cstr ['b']⟩, ⟨.lt, cstr ['c']⟩, ⟨.gt, cstr ['b']⟩]

/-- The line `a>b<c>b`, in which the first redirection of 1 and the last name the same file. -/
theorem last_redirection_wins_iff_threeRedirs : ∃ tree p' fds',
    parseexec threeRedirs 32 0 = .ok (tree, p') ∧
      (∀ q, StepsTo 0 9 ⟨terminal, runcmd (tree.map (text threeRedirs))⟩ q ↔
        q = ⟨fds', runcmd (.exec [cstr ['a']])⟩) ∧
      (∃ mode, fds' 0 = some (.named (cstr ['c']) mode)) ∧
      ∃ mode, fds' 1 = some (.named (cstr ['b']) mode) := by
  have htok : tokensAt threeRedirs 0 = [.word (cstr ['a']), .sym .gt, .word (cstr ['b']), .sym .lt,
      .word (cstr ['c']), .sym .gt, .word (cstr ['b'])] ++ [] := by
    decide +kernel
  have hredirs : Redirs [.sym .gt, .word (cstr ['b']), .sym .lt, .word (cstr ['c']), .sym .gt,
      .word (cstr ['b'])] redirsOfA :=
    .cons (Or.inr (Or.inl rfl)) _ (.cons (Or.inl rfl) _ (.cons (Or.inr (Or.inl rfl)) _ .nil))
  have hcmd : Command [.word (cstr ['a']), .sym .gt, .word (cstr ['b']), .sym .lt,
      .word (cstr ['c']), .sym .gt, .word (cstr ['b'])] (.exec [cstr ['a']]) redirsOfA :=
    .simple .nil (.cons _ hredirs .nil) (by decide)
  have hfuel : 4 * (tokensAt threeRedirs 0).length + 2 ≤ 32 := by
    rw [htok]
    decide
  have hsame : ∀ fd r r', firstFor fd redirsOfA = some r → lastFor fd redirsOfA = some r' →
      r.file = r'.file := by
    intro fd r r' hfirst hlast
    have hfd : r.fd = fd := by simpa using List.find?_some hfirst
    have hle := fd_le r
    obtain rfl | rfl : fd = 0 ∨ fd = 1 := by omega
    · cases hfirst
      cases hlast
      rfl
    · cases hfirst
      cases hlast
      rfl
  obtain ⟨tree, p', fds', hparse, -, hsteps, hiff⟩ := last_redirection_wins_iff (by decide) hcmd
    heads_nil htok hfuel terminal_ne_none 0
  exact ⟨tree, p', fds', hparse, hsteps, hiff.mpr hsame 0 ⟨.lt, cstr ['c']⟩ rfl,
    hiff.mpr hsame 1 ⟨.gt, cstr ['b']⟩ rfl⟩

/-- The line `a>b>c`. -/
def twoRedirs : CStr := cstr ['a', '>', 'b', '>', 'c']

/-- **The command `a>b>c` runs with its output in `b`**, not in `c`. -/
theorem first_redirection_wins : ∃ mem tree fds', parsecmd 24 twoRedirs = .ok (mem, tree) ∧
    StepsTo 0 6 ⟨terminal, runcmd (tree.resolve mem)⟩ ⟨fds', runcmd (.exec [cstr ['a']])⟩ ∧
    fds' 1 = some (.named (cstr ['b']) 0o1101) ∧
    ∀ mode, fds' 1 ≠ some (.named (cstr ['c']) mode) := by
  have hparse : parsecmd 24 twoRedirs = .ok ([97, 0, 98, 0, 99, 0],
      .redir (.redir (.exec [⟨0, 1⟩]) ⟨2, 3⟩ 0o1101 1) ⟨4, 5⟩ 0o1101 1) := by
    decide +kernel
  have hresolve : Cmd.resolve [97, 0, 98, 0, 99, 0]
      (.redir (.redir (.exec [⟨0, 1⟩]) ⟨2, 3⟩ 0o1101 1) ⟨4, 5⟩ 0o1101 1) =
        wrap (.exec [cstr ['a']]) [⟨.gt, cstr ['b']⟩, ⟨.gt, cstr ['c']⟩] := by
    decide +kernel
  have hredir : ∀ r ∈ ([⟨.gt, cstr ['b']⟩, ⟨.gt, cstr ['c']⟩] : List (Redir CStr)),
      r.kind.IsRedir := by
    intro r hr
    rcases List.mem_cons.mp hr with rfl | hr
    · exact Or.inr (Or.inl rfl)
    · rw [List.mem_singleton.mp hr]
      exact Or.inr (Or.inl rfl)
  have hb : openAll [⟨.gt, cstr ['b']⟩, ⟨.gt, cstr ['c']⟩] terminal 1 =
      some (.named (cstr ['b']) 0o1101) := openAll_eq ..
  refine ⟨_, _, openAll [⟨.gt, cstr ['b']⟩, ⟨.gt, cstr ['c']⟩] terminal, hparse, ?_, hb, ?_⟩
  · rw [hresolve]
    exact (stepsTo_wrap _ terminal_ne_none hredir).mpr rfl
  · intro mode hc
    rw [hb] at hc
    injection hc with hc
    injection hc with hfile
    exact absurd hfile (by decide)

end Jyyos.Sh
