import Jyyos.Sh.Run
import Jyyos.Sh.Equiv.Accept

/-!
# No descriptor leaks

Whatever tree the parser returns, a process that enters `runcmd` or calls `execve` has exactly the
descriptors 0, 1 and 2 open (`Standard`); the two sides of a pipe enter with its ends as descriptor
1 and 0; and the process that has forked them has closed both ends before it waits
(`runcmd_no_leak`).

`Safe` says of a program and a table of descriptors that this holds now (`Allowed`) and after any
further steps.  `safe_runcmd` shows it for `runcmd`, by induction on the command: closing a
descriptor below 3 makes it the lowest free one, and the two ends of a new pipe are 3 and 4, which
both sides and the parent close again.  A step keeps all processes safe, so they are in every
state that is reached.
-/

namespace Jyyos.Sh

/-- Exactly the descriptors 0, 1 and 2 are open. -/
def Standard (fds : Fds) : Prop := ∀ fd, fds fd ≠ none ↔ fd < 3

/-- No descriptor is an end of the pipe. -/
def Lacks (fds : Fds) (pipe : ℕ) : Prop :=
  ∀ fd, fds fd ≠ some (.readEnd pipe) ∧ fds fd ≠ some (.writeEnd pipe)

/-- The process may do what it is going to do next. -/
def Allowed (fds : Fds) : Prog → Prop
  | .enter .plain _ => Standard fds
  | .enter (.left pipe) _ => Standard fds ∧ fds 1 = some (.writeEnd pipe)
  | .enter (.right pipe) _ => Standard fds ∧ fds 0 = some (.readEnd pipe)
  | .execve _ _ _ => Standard fds
  | .wait (some pipe) _ => Lacks fds pipe
  | _ => True

/-- Now and later the process does what it may; `n` is the next pipe. -/
def Safe : ℕ → Fds → Prog → Prop
  | n, fds, .enter role next => Allowed fds (.enter role next) ∧ Safe n fds next
  | _, _, .exit _ => True
  | n, fds, .execve _ _ failed => Standard fds ∧ Safe n fds failed
  | n, fds, .close fd next => Safe n (Function.update fds fd none) next
  | n, fds, .dup fd next =>
    (∀ file fd', fds fd = some file → LowestFree fds fd' →
      Safe n (Function.update fds fd' (some file)) next) ∧ (fds fd = none → Safe n fds next)
  | n, fds, .openFile file mode next =>
    ∀ fd, LowestFree fds fd → Safe n (Function.update fds fd (some (.named file mode))) next
  | n, fds, .pipe next =>
    ∀ id p0 p1, n ≤ id → LowestFree fds p0 →
      LowestFree (Function.update fds p0 (some (.readEnd id))) p1 →
      Safe (id + 1) (Function.update (Function.update fds p0 (some (.readEnd id))) p1
        (some (.writeEnd id))) (next p0 p1 id)
  | n, fds, .fork child parent => Safe n fds child ∧ Safe n fds parent
  | n, fds, .wait pipe next => Allowed fds (.wait pipe next) ∧ Safe n fds next

theorem Safe.allowed {n : ℕ} {fds : Fds} {prog : Prog} (h : Safe n fds prog) :
    Allowed fds prog := by
  cases prog with
  | enter role next => exact h.1
  | execve path argv failed => exact h.1
  | wait pipe next => exact h.1
  | exit | close | dup | openFile | pipe | fork => trivial

/-- Pipes that other processes make do not matter. -/
theorem Safe.mono {n m : ℕ} (hnm : n ≤ m) {prog : Prog} : ∀ {fds : Fds},
    Safe n fds prog → Safe m fds prog := by
  induction prog with
  | enter role next ih => exact fun h => ⟨h.1, ih h.2⟩
  | exit status => exact fun h => h
  | execve path argv failed ih => exact fun h => ⟨h.1, ih h.2⟩
  | close fd next ih => exact fun h => ih h
  | dup fd next ih =>
    exact fun h => ⟨fun file fd' h1 h2 => ih (h.1 file fd' h1 h2), fun h1 => ih (h.2 h1)⟩
  | openFile file mode next ih => exact fun h fd hfd => ih (h fd hfd)
  | pipe next ih => exact fun h id p0 p1 hid => h id p0 p1 (hnm.trans hid)
  | fork child parent ihc ihp => exact fun h => ⟨ihc h.1, ihp h.2⟩
  | wait pipe next ih => exact fun h => ⟨h.1, ih h.2⟩

/-! ### Steps -/

/-- A process and its child stay safe. -/
theorem Safe.step {n n' : ℕ} {p : Proc} {ps : List Proc} (hstep : ProcStep n p n' ps)
    (h : Safe n p.fds p.prog) : n ≤ n' ∧ ∀ q ∈ ps, Safe n' q.fds q.prog := by
  cases hstep with
  | enter => exact ⟨le_refl n, by simpa using h.2⟩
  | exit => exact ⟨le_refl n, nofun⟩
  | execve => exact ⟨le_refl n, nofun⟩
  | execveFails => exact ⟨le_refl n, by simpa using h.2⟩
  | close => exact ⟨le_refl n, by simpa [Safe] using h⟩
  | dup hopen hlow => exact ⟨le_refl n, by simpa using h.1 _ _ hopen hlow⟩
  | dupFails hclosed => exact ⟨le_refl n, by simpa using h.2 hclosed⟩
  | openFile hlow => exact ⟨le_refl n, by simpa using h _ hlow⟩
  | pipe hlow hlow' => exact ⟨Nat.le_succ n, by simpa using h n _ _ (le_refl n) hlow hlow'⟩
  | fork => exact ⟨le_refl n, by simpa [Safe] using h⟩
  | wait => exact ⟨le_refl n, by simpa using h.2⟩

/-- All processes are safe. -/
def AllSafe (k : Kernel) : Prop := ∀ p ∈ k.procs, Safe k.nextPipe p.fds p.prog

theorem AllSafe.step {k k' : Kernel} (h : AllSafe k) (hstep : Step k k') : AllSafe k' := by
  cases hstep with
  | run hproc =>
    obtain ⟨hle, hps⟩ := Safe.step hproc (h _ (by simp))
    intro q hq
    simp only [List.mem_append] at hq
    rcases hq with (hq | hq) | hq
    · exact (h q (by simp [hq])).mono hle
    · exact hps q hq
    · exact (h q (by simp [hq])).mono hle

theorem AllSafe.run {k k' : Kernel} (h : AllSafe k) (hrun : Relation.ReflTransGen Step k k') :
    AllSafe k' := by
  induction hrun with
  | refl => exact h
  | tail _ hstep ih => exact ih.step hstep

/-! ### Descriptors -/

section Fds

variable {fds : Fds}

theorem lowestFree_of {fd : ℕ} (hfree : fds fd = none)
    (hopen : ∀ i < fd, fds i ≠ none) : LowestFree fds fd :=
  ⟨hfree, fun i hi => not_lt.mp fun hlt => hopen i hlt hi⟩

theorem eq_of_lowestFree {fd fd' : ℕ} (h : LowestFree fds fd') (hfree : fds fd = none)
    (hbelow : ∀ i < fd, fds i ≠ none) : fd' = fd := by
  have hle : fd' ≤ fd := h.2 hfree
  rcases hle.lt_or_eq with hlt | heq
  · exact absurd h.1 (hbelow fd' hlt)
  · exact heq

theorem Standard.update (h : Standard fds) {fd : ℕ} (hfd : fd < 3) (file : File) :
    Standard (Function.update fds fd (some file)) := by
  intro i
  by_cases hi : i = fd
  · rw [hi, Function.update_self]
    exact ⟨fun _ => hfd, fun _ => nofun⟩
  · rw [Function.update_of_ne hi]
    exact h i

theorem Standard.eq_none (h : Standard fds) {fd : ℕ} (hfd : 3 ≤ fd) : fds fd = none := by
  by_contra hne
  have := (h fd).mp hne
  omega

/-- The lowest free descriptor after one has been closed. -/
theorem Standard.reopen (h : Standard fds) {fd fd' : ℕ} (hfd : fd < 3) {fds' : Fds}
    (hclosed : fds' fd = none) (hsame : ∀ i < fd, fds' i = fds i) (hlow : LowestFree fds' fd') :
    fd' = fd := by
  refine eq_of_lowestFree hlow hclosed fun i hi => ?_
  rw [hsame i hi]
  exact (h i).mpr (by omega)

/-- Pipes from `n` on are not known here. -/
def Older (n : ℕ) (fds : Fds) : Prop := ∀ id, n ≤ id → Lacks fds id

theorem Lacks.update {id : ℕ} (h : Lacks fds id) (fd : ℕ) {file : File}
    (hfile : file ≠ .readEnd id ∧ file ≠ .writeEnd id) :
    Lacks (Function.update fds fd (some file)) id := by
  intro i
  by_cases hi : i = fd
  · rw [hi, Function.update_self]
    simpa using hfile
  · rw [Function.update_of_ne hi]
    exact h i

end Fds

/-! ### `runcmd` -/

/-- The redirections are of the descriptors 0, 1 and 2. -/
def Cmd.FdsOk {W : Type} : Cmd W → Prop
  | .exec _ => True
  | .redir cmd _ _ fd => fd < 3 ∧ cmd.FdsOk
  | .pipe left right => left.FdsOk ∧ right.FdsOk
  | .list left right => left.FdsOk ∧ right.FdsOk
  | .back cmd => cmd.FdsOk

/-- The ends of a new pipe are 3 and 4. -/
theorem Standard.pipe_fds {fds : Fds} (hstd : Standard fds) {id p0 p1 : ℕ}
    (h0 : LowestFree fds p0)
    (h1 : LowestFree (Function.update fds p0 (some (.readEnd id))) p1) : p0 = 3 ∧ p1 = 4 := by
  have hp0 : p0 = 3 := eq_of_lowestFree h0 (hstd.eq_none (le_refl 3)) fun i hi => (hstd i).mpr hi
  subst hp0
  refine ⟨rfl, eq_of_lowestFree h1 ?_ fun i hi => ?_⟩
  · rw [Function.update_of_ne (by decide)]
    exact hstd.eq_none (by decide)
  · by_cases h3 : i = 3
    · rw [h3, Function.update_self]
      nofun
    · rw [Function.update_of_ne h3]
      exact (hstd i).mpr (by omega)

/-- Closing 3 and 4 leaves a table that differs from a standard one only there. -/
theorem Standard.close_ends {fds fds' : Fds} (hstd : Standard fds)
    (hsame : ∀ i, i ≠ 3 → i ≠ 4 → fds' i = fds i) :
    Function.update (Function.update fds' 3 none) 4 none = fds := by
  funext i
  by_cases h4 : i = 4
  · rw [h4, Function.update_self, hstd.eq_none (by decide)]
  · rw [Function.update_of_ne h4]
    by_cases h3 : i = 3
    · rw [h3, Function.update_self, hstd.eq_none (le_refl 3)]
    · rw [Function.update_of_ne h3, hsame i h3 h4]

/-- One side of a pipe: its descriptor is closed, and the end takes its place. -/
theorem safe_side {n fd p : ℕ} {fds fds' : Fds} {file : File} {next : Prog} (hstd : Standard fds)
    (hfd : fd < 3) (hsame : ∀ i, i ≠ 3 → i ≠ 4 → fds' i = fds i) (hp : 3 ≤ p)
    (hfile : fds' p = some file) (hnext : Safe n (Function.update fds fd (some file)) next) :
    Safe n fds' (.close fd (.dup p (.close 3 (.close 4 next)))) := by
  have hdup : Function.update fds' fd none p = some file := by
    rw [Function.update_of_ne (by omega), hfile]
  refine ⟨fun file' fd' hopen hlow => ?_, fun hnone => ?_⟩
  · obtain rfl : file = file' := Option.some.inj (hdup.symm.trans hopen)
    obtain rfl : fd' = fd := by
      refine hstd.reopen hfd (Function.update_self ..) (fun i hi => ?_) hlow
      rw [Function.update_of_ne (by omega), hsame i (by omega) (by omega)]
    rw [Function.update_idem]
    show Safe n (Function.update (Function.update _ 3 none) 4 none) next
    rw [(hstd.update hfd file).close_ends fun i h3 h4 => ?_]
    · exact hnext
    · by_cases hi : i = fd'
      · rw [hi, Function.update_self, Function.update_self]
      · rw [Function.update_of_ne hi, Function.update_of_ne hi, hsame i h3 h4]
  · rw [hdup] at hnone
    cases hnone

/-- **What `runcmd` does is safe.** -/
theorem safe_runcmd (cmd : Cmd CStr) : cmd.FdsOk → ∀ {n : ℕ} {fds : Fds}, Standard fds →
    Older n fds → Safe n fds (runcmd cmd) := by
  induction cmd with
  | exec argv =>
    intro _ n fds hstd _
    cases argv with
    | nil => trivial
    | cons arg args => exact ⟨hstd, trivial⟩
  | redir cmd file mode fd ih =>
    intro hok n fds hstd hold fd' hlow
    obtain rfl : fd' = fd := by
      refine hstd.reopen hok.1 (Function.update_self ..) (fun i hi => ?_) hlow
      exact Function.update_of_ne (by omega) ..
    rw [Function.update_idem]
    have hstd' := hstd.update hok.1 (.named file mode)
    refine ⟨hstd', ih hok.2 hstd' fun id hid => (hold id hid).update _ ⟨nofun, nofun⟩⟩
  | list left right ihl ihr =>
    intro hok n fds hstd hold
    exact ⟨⟨hstd, ihl hok.1 hstd hold⟩, trivial, hstd, ihr hok.2 hstd hold⟩
  | pipe left right ihl ihr =>
    intro hok n fds hstd hold id p0 p1 hid hlow hlow'
    obtain ⟨rfl, rfl⟩ := hstd.pipe_fds hlow hlow'
    have hsame : ∀ i, i ≠ 3 → i ≠ 4 → Function.update (Function.update fds 3 (some (.readEnd id))) 4
        (some (.writeEnd id)) i = fds i := by
      intro i h3 h4
      rw [Function.update_of_ne h4, Function.update_of_ne h3]
    have holder : ∀ {fd : ℕ} {file : File}, (∀ id', id + 1 ≤ id' →
        file ≠ .readEnd id' ∧ file ≠ .writeEnd id') →
        Older (id + 1) (Function.update fds fd (some file)) :=
      fun hfile id' hid' => (hold id' (by omega)).update _ (hfile id' hid')
    refine ⟨?_, ?_, ?_⟩
    · have hstd' := hstd.update (by decide : 1 < 3) (.writeEnd id)
      refine safe_side hstd (by decide) hsame (by decide) (Function.update_self ..) ?_
      refine ⟨⟨hstd', Function.update_self ..⟩, ihl hok.1 hstd' (holder fun id' hid' => ?_)⟩
      refine ⟨nofun, fun heq => ?_⟩
      injection heq with heq
      omega
    · have hstd' := hstd.update (by decide : 0 < 3) (.readEnd id)
      have hread : Function.update (Function.update fds 3 (some (.readEnd id))) 4
          (some (.writeEnd id)) 3 = some (.readEnd id) := by
        rw [Function.update_of_ne (by decide), Function.update_self]
      refine safe_side hstd (by decide) hsame (by decide) hread ?_
      refine ⟨⟨hstd', Function.update_self ..⟩, ihr hok.2 hstd' (holder fun id' hid' => ?_)⟩
      refine ⟨fun heq => ?_, nofun⟩
      injection heq with heq
      omega
    · -- the parent closes both ends, and is back at its old table
      show Allowed _ _ ∧ Allowed _ _ ∧ True
      rw [hstd.close_ends hsame]
      exact ⟨hold id hid, hold id hid, trivial⟩
  | back cmd ih =>
    intro hok n fds hstd hold
    exact ⟨⟨hstd, ih hok hstd hold⟩, trivial⟩

/-! ### The trees of the parser -/

theorem fdsOk_wrap {W : Type} (rs : List (Redir W)) : ∀ {c : Cmd W}, c.FdsOk →
    (wrap c rs).FdsOk := by
  induction rs with
  | nil => exact fun h => h
  | cons r rs ih =>
    intro c h
    refine ih ?_
    obtain ⟨k, file⟩ := r
    cases k
    case lt | gt | gtgt => exact ⟨by decide, h⟩
    case bar | amp | semi | lpar | rpar => exact h

theorem fdsOk_backs {W : Type} (n : ℕ) : ∀ {c : Cmd W}, c.FdsOk → (backs n c).FdsOk := by
  induction n with
  | zero => exact fun h => h
  | succ n ih => exact fun h => ih h

mutual

theorem Line.fdsOk {W : Type} {ts : List (Tok W)} {c : Cmd W} : Line ts c → c.FdsOk
  | .last hpipe n => fdsOk_backs n hpipe.fdsOk
  | .semi hpipe n hline => ⟨fdsOk_backs n hpipe.fdsOk, hline.fdsOk⟩

theorem Pipe.fdsOk {W : Type} {ts : List (Tok W)} {c : Cmd W} : Pipe ts c → c.FdsOk
  | .last hexec => hexec.fdsOk
  | .bar hexec hpipe => ⟨hexec.fdsOk, hpipe.fdsOk⟩

theorem Exec.fdsOk {W : Type} {ts : List (Tok W)} {c : Cmd W} : Exec ts c → c.FdsOk
  | .block hline _ => fdsOk_wrap _ hline.fdsOk
  | .simple _ _ _ => fdsOk_wrap _ trivial

end

/-- **No descriptor leaks.**  Take any tree that `parsecmd` returns and a process that enters
`runcmd` with it and with exactly the descriptors 0, 1 and 2, none of them an end of a later pipe.
Whatever the order of the steps, every process does only what it may: it enters `runcmd` and calls
`execve` with exactly 0, 1 and 2 open, the sides of a pipe enter with its ends in their places, and
the process that made it waits with neither of them. -/
theorem runcmd_no_leak {s : CStr} (h0 : 0 ∉ s) {fuel : ℕ} {mem : List UInt8} {c : Cmd Span}
    (hparse : parsecmd fuel s = .ok (mem, c)) {fds : Fds} (hstd : Standard fds) {n : ℕ}
    (hold : Older n fds) {k : Kernel} (hrun : Relation.ReflTransGen Step
      ⟨[⟨fds, .enter .plain (runcmd (c.resolve mem))⟩], n⟩ k) :
    ∀ p ∈ k.procs, Allowed p.fds p.prog := by
  have hstart : AllSafe ⟨[⟨fds, .enter .plain (runcmd (c.resolve mem))⟩], n⟩ := by
    intro p hp
    rw [List.mem_singleton.mp hp]
    exact ⟨hstd, safe_runcmd _ (line_of_parsecmd h0 hparse).fdsOk hstd hold⟩
  exact fun p hp => (hstart.run hrun p hp).allowed

/-- A table with the descriptors 0, 1 and 2. -/
def terminal : Fds := fun fd => if fd < 3 then some (.other fd) else none

theorem standard_terminal : Standard terminal := by
  intro fd
  unfold terminal
  split_ifs with h <;> simp [h]

/-- The descriptors with the ends of the first pipe. -/
def withPipe : Fds :=
  Function.update (Function.update terminal 3 (some (.readEnd 0))) 4 (some (.writeEnd 0))

/-- The descriptors of the left side when it enters `runcmd`. -/
def leftFds : Fds :=
  Function.update (Function.update (Function.update (Function.update withPipe 1 none) 1
    (some (.writeEnd 0))) 3 none) 4 none

/-- The left side of the line `a|b` when it enters `runcmd`. -/
theorem runcmd_no_leak_onePipe : Standard leftFds ∧ leftFds 1 = some (.writeEnd 0) := by
  have hold : Older 0 terminal := by
    intro id _ fd
    unfold terminal
    split_ifs <;> exact ⟨nofun, nofun⟩
  have hparse : parsecmd 16 (cstr ['a', '|', 'b']) =
      .ok ([97, 0, 98, 0], .pipe (.exec [⟨0, 1⟩]) (.exec [⟨2, 3⟩])) := by decide +kernel
  have head : ∀ {p : Proc} {n n' : ℕ} {ps others : List Proc}, ProcStep n p n' ps →
      Step ⟨p :: others, n⟩ ⟨ps ++ others, n'⟩ := fun h => @Step.run [] _ _ _ _ _ h
  have hpipe : LowestFree terminal 3 := lowestFree_of rfl (by decide)
  have hpipe' : LowestFree (Function.update terminal 3 (some (.readEnd 0))) 4 :=
    lowestFree_of rfl (by decide)
  have hdup : LowestFree (Function.update withPipe 1 none) 1 := lowestFree_of rfl (by decide)
  have hrun : Relation.ReflTransGen Step
      ⟨[⟨terminal, .enter .plain (runcmd (.pipe (.exec [cstr ['a']]) (.exec [cstr ['b']])))⟩], 0⟩
      ⟨[⟨leftFds, .enter (.left 0) (runcmd (.exec [cstr ['a']]))⟩,
        ⟨withPipe, .fork (.close 0 (.dup 3 (.close 3 (.close 4
          (.enter (.right 0) (runcmd (.exec [cstr ['b']]))))))) (.close 3 (.close 4
            (.wait (some 0) (.wait (some 0) (.exit 0)))))⟩], 1⟩ := by
    refine .head (head .enter) (.head (head (.pipe hpipe hpipe')) (.head (head .fork) ?_))
    refine .head (head .close) (.head (head (.dup rfl hdup)) ?_)
    exact .head (head .close) (.single (head .close))
  exact runcmd_no_leak (by decide) hparse standard_terminal hold hrun _ List.mem_cons_self

end Jyyos.Sh
