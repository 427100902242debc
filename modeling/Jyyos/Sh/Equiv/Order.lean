import Jyyos.Sh.Equiv.Main
import Jyyos.Sh.Equiv.Processes
import Mathlib.Data.Set.Basic

/-!
# The order of commands

What `;`, `|` and `&` mean.  The simple commands of a tree are numbered from left to right.
`Before b c i j`: the command `i` stands before a `;` and not behind a `&` of its own, and `j`
stands after it; so `i` must be over before `j` is started.

`Acts P c`: the program `P` does what the command `c` says; `runcmd` and the loop of `main` are such
programs.  `Running D b c t`: the process `t` runs the command `c`, when the simple commands in `D`
are over.  Each step of a process keeps it so, and starts only what may be started
(`Running.step`).
-/

namespace Jyyos.Sh

/-! ### Simple commands -/

/-- The simple commands of a tree, from left to right. -/
def Cmd.simple : Cmd CStr → List (List CStr)
  | .exec [] => []
  | .exec (arg :: args) => [arg :: args]
  | .redir cmd _ _ _ => cmd.simple
  | .pipe left right => left.simple ++ right.simple
  | .list left right => left.simple ++ right.simple
  | .back cmd => cmd.simple

/-- The numbers of the simple commands that the shell waits for, when the first one is `b`. -/
def Cmd.foreground (b : ℕ) : Cmd CStr → List ℕ
  | .exec argv => List.range' b (Cmd.exec argv).simple.length
  | .redir cmd _ _ _ => cmd.foreground b
  | .pipe left right => left.foreground b ++ right.foreground (b + left.simple.length)
  | .list left right => left.foreground b ++ right.foreground (b + left.simple.length)
  | .back _ => []

/-- `j` is one of the simple commands of the tree. -/
def Cmd.Has (b : ℕ) (c : Cmd CStr) (j : ℕ) : Prop := b ≤ j ∧ j < b + c.simple.length

/-- The command `i` has to be over before `j` is started. -/
def Cmd.Before : ℕ → Cmd CStr → ℕ → ℕ → Prop
  | _, .exec _, _, _ => False
  | b, .redir cmd _ _ _, i, j => Before b cmd i j
  | b, .pipe left right, i, j =>
    Before b left i j ∨ Before (b + left.simple.length) right i j
  | b, .list left right, i, j =>
    (i ∈ left.foreground b ∧ right.Has (b + left.simple.length) j) ∨
      Before b left i j ∨ Before (b + left.simple.length) right i j
  | b, .back cmd, i, j => Before b cmd i j

theorem Cmd.has_of_mem_foreground {c : Cmd CStr} {b i : ℕ} (h : i ∈ c.foreground b) :
    c.Has b i := by
  induction c generalizing b with
  | exec argv => exact List.mem_range'_1.mp h
  | redir cmd file mode fd ih => exact ih h
  | pipe left right ihl ihr | list left right ihl ihr =>
    obtain h | h := List.mem_append.mp h
    · have := ihl h
      simp only [Has, simple, List.length_append] at this ⊢
      omega
    · have := ihr h
      simp only [Has, simple, List.length_append] at this ⊢
      omega
  | back cmd ih => cases h

theorem Cmd.Before.has {c : Cmd CStr} {b i j : ℕ} (h : c.Before b i j) : c.Has b j := by
  induction c generalizing b with
  | exec argv => cases h
  | redir cmd file mode fd ih => exact ih h
  | pipe left right ihl ihr =>
    obtain h | h := h
    · have := ihl h
      simp only [Has, simple, List.length_append] at this ⊢
      omega
    · have := ihr h
      simp only [Has, simple, List.length_append] at this ⊢
      omega
  | list left right ihl ihr =>
    have hhas : left.Has b j ∨ right.Has (b + left.simple.length) j := by
      obtain h | h | h := h
      · exact Or.inr h.2
      · exact Or.inl (ihl h)
      · exact Or.inr (ihr h)
    simp only [Has, simple, List.length_append] at hhas ⊢
    omega
  | back cmd ih => exact ih h

/-! ### Parts of a command -/

/-- The part `c'` of the command `c` may be run: what has to be over before one of its simple
commands is started is over, unless the part says so itself. -/
structure Part (D : Set ℕ) (b : ℕ) (c : Cmd CStr) (b' : ℕ) (c' : Cmd CStr) : Prop where
  has : ∀ j, c'.Has b' j → c.Has b j
  argv : ∀ j, c'.Has b' j → c.simple[j - b]? = c'.simple[j - b']?
  before : ∀ i j, c'.Has b' j → c.Before b i j → i ∈ D ∨ c'.Before b' i j

section Parts

variable {D D' : Set ℕ} {b b' b'' : ℕ} {c c' c'' : Cmd CStr}

theorem Part.trans (h : Part D b c b' c') (h' : Part D b' c' b'' c'') : Part D b c b'' c'' where
  has := fun j hj => h.has j (h'.has j hj)
  argv := fun j hj => (h.argv j (h'.has j hj)).trans (h'.argv j hj)
  before := by
    intro i j hj hij
    obtain hi | hi := h.before i j (h'.has j hj) hij
    · exact Or.inl hi
    · exact h'.before i j hj hi

theorem Part.mono (h : Part D b c b' c') (hD : D ⊆ D') : Part D' b c b' c' :=
  ⟨h.has, h.argv, fun i j hj hij => (h.before i j hj hij).imp_left fun hi => hD hi⟩

theorem Part.refl (D : Set ℕ) (b : ℕ) (c : Cmd CStr) : Part D b c b c :=
  ⟨fun _ hj => hj, fun _ _ => rfl, fun _ _ _ hij => Or.inr hij⟩

theorem part_redir (D : Set ℕ) (b : ℕ) (c : Cmd CStr) (file : CStr) (mode fd : ℕ) :
    Part D b (.redir c file mode fd) b c :=
  ⟨fun _ hj => hj, fun _ _ => rfl, fun _ _ _ hij => Or.inr hij⟩

theorem part_back (D : Set ℕ) (b : ℕ) (c : Cmd CStr) : Part D b (.back c) b c :=
  ⟨fun _ hj => hj, fun _ _ => rfl, fun _ _ _ hij => Or.inr hij⟩

variable {l r : Cmd CStr}

theorem not_has_both {j : ℕ} (hl : l.Has b j) (hr : r.Has (b + l.simple.length) j) : False := by
  have := hl.2
  have := hr.1
  omega

theorem part_pipe_left (D : Set ℕ) (b : ℕ) (l r : Cmd CStr) : Part D b (.pipe l r) b l where
  has := by
    intro j hj
    simp only [Cmd.Has, Cmd.simple, List.length_append] at hj ⊢
    omega
  argv := by
    intro j hj
    exact List.getElem?_append_left (by have := hj.1; have := hj.2; omega)
  before := by
    intro i j hj hij
    obtain h | h := hij
    · exact Or.inr h
    · exact (not_has_both hj h.has).elim

theorem part_pipe_right (D : Set ℕ) (b : ℕ) (l r : Cmd CStr) :
    Part D b (.pipe l r) (b + l.simple.length) r where
  has := by
    intro j hj
    simp only [Cmd.Has, Cmd.simple, List.length_append] at hj ⊢
    omega
  argv := by
    intro j hj
    have := hj.1
    show (l.simple ++ r.simple)[j - b]? = _
    rw [List.getElem?_append_right (by omega), Nat.sub_sub]
  before := by
    intro i j hj hij
    obtain h | h := hij
    · exact (not_has_both h.has hj).elim
    · exact Or.inr h

theorem part_list_left (D : Set ℕ) (b : ℕ) (l r : Cmd CStr) : Part D b (.list l r) b l where
  has := (part_pipe_left D b l r).has
  argv := (part_pipe_left D b l r).argv
  before := by
    intro i j hj hij
    obtain h | h | h := hij
    · exact (not_has_both hj h.2).elim
    · exact Or.inr h
    · exact (not_has_both hj h.has).elim

/-- What stands before the `;` is over. -/
theorem part_list_right (hover : ∀ i ∈ l.foreground b, i ∈ D) :
    Part D b (.list l r) (b + l.simple.length) r where
  has := (part_pipe_right D b l r).has
  argv := (part_pipe_right D b l r).argv
  before := by
    intro i j hj hij
    obtain h | h | h := hij
    · exact Or.inl (hover i h.1)
    · exact (not_has_both h.has hj).elim
    · exact Or.inr h

end Parts

/-! ### Programs that do what a command says -/

/-- The process waits for two children and exits. -/
inductive Joins : Prog → Prop
  | waits {pipe pipe' : Option ℕ} {status : ℕ} : Joins (.wait pipe (.wait pipe' (.exit status)))
  | close {fd : ℕ} {prog : Prog} (h : Joins prog) : Joins (.close fd prog)

/-- The path that is given to `execve`. -/
def binPath (argv : List CStr) : CStr := cstr ['/', 'b', 'i', 'n', '/'] ++ argv.headD []

/-- The program does what the command says. -/
inductive Acts : Prog → Cmd CStr → Prop
  | nothing {status : ℕ} : Acts (.exit status) (.exec [])
  | exec {arg : CStr} {args : List CStr} {status : ℕ} :
      Acts (.execve (binPath (arg :: args)) (arg :: args) (.exit status)) (.exec (arg :: args))
  | enter {role : Role} {P : Prog} {c : Cmd CStr} (h : Acts P c) : Acts (.enter role P) c
  | close {fd : ℕ} {P : Prog} {c : Cmd CStr} (h : Acts P c) : Acts (.close fd P) c
  | dup {fd : ℕ} {P : Prog} {c : Cmd CStr} (h : Acts P c) : Acts (.dup fd P) c
  | openFile {file : CStr} {mode : ℕ} {P : Prog} {c : Cmd CStr} (h : Acts P c) :
      Acts (.openFile file mode P) c
  | redir {P : Prog} {c : Cmd CStr} {file : CStr} {mode fd : ℕ} (h : Acts P c) :
      Acts P (.redir c file mode fd)
  | list {P Q : Prog} {l r : Cmd CStr} {pipe : Option ℕ} (hl : Acts P l) (hr : Acts Q r) :
      Acts (.fork P (.wait pipe Q)) (.list l r)
  | pipe {next : ℕ → ℕ → ℕ → Prog} {l r : Cmd CStr}
      (h : ∀ p0 p1 id, Acts (next p0 p1 id) (.pipe l r)) : Acts (.pipe next) (.pipe l r)
  | sides {P Q R : Prog} {l r : Cmd CStr} (hl : Acts P l) (hr : Acts Q r) (hR : Joins R) :
      Acts (.fork P (.fork Q R)) (.pipe l r)
  | back {P : Prog} {c : Cmd CStr} {status : ℕ} (h : Acts P c) :
      Acts (.fork P (.exit status)) (.back c)

theorem acts_runcmd (cmd : Cmd CStr) : Acts (runcmd cmd) cmd := by
  induction cmd with
  | exec argv =>
    cases argv with
    | nil => exact .nothing
    | cons arg args => exact .exec
  | redir cmd file mode fd ih => exact .redir (.close (.openFile (.enter ih)))
  | list left right ihl ihr => exact .list (.enter ihl) (.enter ihr)
  | pipe left right ihl ihr =>
    refine .pipe fun p0 p1 id => .sides ?_ ?_ (.close (.close .waits))
    · exact .close (.dup (.close (.close (.enter ihl))))
    · exact .close (.dup (.close (.close (.enter ihr))))
  | back cmd ih => exact .back (.enter ih)

/-- What a line runs; nothing, if its parser panics. -/
def lineCmd : Option Ready → Cmd CStr
  | none => .exec []
  | some line => line.cmd.inArena line.freem

/-- The lines of a session, as if they were one line. -/
def sessionCmd (lines : List (Option Ready)) : Cmd CStr :=
  lines.foldr (fun line rest => .list (lineCmd line) rest) (.exec [])

theorem acts_session (lines : List (Option Ready)) :
    Acts (session lines) (sessionCmd lines) := by
  induction lines with
  | nil => exact .nothing
  | cons line lines ih =>
    cases line with
    | none => exact .list .nothing ih
    | some line =>
      rw [session, inArena_runcmd]
      exact .list (.enter (acts_runcmd _)) ih

theorem Joins.calls {P : Prog} (h : Joins P) : P.calls = 0 := by
  induction h with
  | waits => rfl
  | close _ ih => exact ih

theorem Acts.calls {P : Prog} {c : Cmd CStr} (h : Acts P c) : P.calls = c.simple.length := by
  induction h with
  | nothing => rfl
  | exec => rfl
  | enter _ ih => exact ih
  | close _ ih => exact ih
  | dup _ ih => exact ih
  | openFile _ ih => exact ih
  | redir _ ih => exact ih
  | list _ _ ihl ihr => rw [Prog.calls, Prog.calls, ihl, ihr, Cmd.simple, List.length_append]
  | pipe _ ih => exact ih 0 0 0
  | sides _ _ hR ihl ihr =>
    rw [Prog.calls, Prog.calls, ihl, ihr, hR.calls, Cmd.simple, List.length_append, Nat.add_zero]
  | back _ ih => exact ih

/-! ### Processes that run a command -/

/-- What the shell waits for is over. -/
def Over (D : Set ℕ) (b : ℕ) (c : Cmd CStr) : Prop := ∀ i ∈ c.foreground b, i ∈ D

open Family Activity in
/-- The process runs the command. -/
inductive Running (D : Set ℕ) : ℕ → Cmd CStr → Family → Prop
  | acts {b : ℕ} {P : Prog} {c : Cmd CStr} (h : Acts P c) : Running D b c (node (shell b P) [])
  | program {b : ℕ} {arg : CStr} {args : List CStr} :
      Running D b (.exec (arg :: args)) (node (program b) [])
  | failed {b n status : ℕ} {arg : CStr} {args : List CStr} (h : b ∈ D) :
      Running D b (.exec (arg :: args)) (node (shell n (.exit status)) [])
  | redir {b : ℕ} {c : Cmd CStr} {file : CStr} {mode fd : ℕ} {t : Family} (h : Running D b c t) :
      Running D b (.redir c file mode fd) t
  | left {b : ℕ} {l r : Cmd CStr} {t : Family} {pipe : Option ℕ} {Q : Prog} (hl : Running D b l t)
      (hr : Acts Q r) :
      Running D b (.list l r) (node (shell (b + l.simple.length) (.wait pipe Q)) [t])
  | right {b : ℕ} {l r : Cmd CStr} {t : Family} (hl : Over D b l)
      (hr : Running D (b + l.simple.length) r t) : Running D b (.list l r) t
  | leftSide {b : ℕ} {l r : Cmd CStr} {t : Family} {Q R : Prog} (hl : Running D b l t)
      (hr : Acts Q r) (hR : Joins R) :
      Running D b (.pipe l r) (node (shell (b + l.simple.length) (.fork Q R)) [t])
  | sides {b n : ℕ} {l r : Cmd CStr} {t t' : Family} {R : Prog} (hl : Running D b l t)
      (hr : Running D (b + l.simple.length) r t') (hR : Joins R) :
      Running D b (.pipe l r) (node (shell n R) [t, t'])
  | lastLeft {b n status : ℕ} {l r : Cmd CStr} {t : Family} {pipe : Option ℕ}
      (hl : Running D b l t) (hr : Over D (b + l.simple.length) r) :
      Running D b (.pipe l r) (node (shell n (.wait pipe (.exit status))) [t])
  | lastRight {b n status : ℕ} {l r : Cmd CStr} {t : Family} {pipe : Option ℕ}
      (hl : Over D b l) (hr : Running D (b + l.simple.length) r t) :
      Running D b (.pipe l r) (node (shell n (.wait pipe (.exit status))) [t])
  | joined {b n status : ℕ} {l r : Cmd CStr} (hl : Over D b l)
      (hr : Over D (b + l.simple.length) r) :
      Running D b (.pipe l r) (node (shell n (.exit status)) [])
  | back {b n status : ℕ} {c : Cmd CStr} {t : Family} (h : Running D b c t) :
      Running D b (.back c) (node (shell n (.exit status)) [t])
  | zombie {b : ℕ} {c : Cmd CStr} (h : Over D b c) : Running D b c (node zombie [])

theorem Over.mono {D D' : Set ℕ} {b : ℕ} {c : Cmd CStr} (h : Over D b c) (hD : D ⊆ D') :
    Over D' b c := fun i hi => hD (h i hi)

theorem Running.mono {D D' : Set ℕ} (hD : D ⊆ D') {b : ℕ} {c : Cmd CStr} {t : Family}
    (h : Running D b c t) : Running D' b c t := by
  induction h with
  | acts h => exact .acts h
  | program => exact .program
  | failed h => exact .failed (hD h)
  | redir _ ih => exact .redir ih
  | left _ hr ih => exact .left ih hr
  | right hl _ ih => exact .right (hl.mono hD) ih
  | leftSide _ hr hR ih => exact .leftSide ih hr hR
  | sides _ _ hR ihl ihr => exact .sides ihl ihr hR
  | lastLeft _ hr ih => exact .lastLeft ih (hr.mono hD)
  | lastRight hl _ ih => exact .lastRight (hl.mono hD) ih
  | joined hl hr => exact .joined (hl.mono hD) (hr.mono hD)
  | back _ ih => exact .back ih
  | zombie h => exact .zombie (h.mono hD)

/-- A process that has exited has waited for all it had to wait for. -/
theorem Running.over {D : Set ℕ} {b : ℕ} {c : Cmd CStr} {t : Family} (h : Running D b c t)
    (ht : t = .node .zombie []) : Over D b c := by
  induction h with
  | acts _ => cases ht
  | program => cases ht
  | failed _ => cases ht
  | redir _ ih => exact ih ht
  | left _ _ _ => cases ht
  | right hl _ ih =>
    intro i hi
    obtain hi | hi := List.mem_append.mp hi
    · exact hl i hi
    · exact ih ht i hi
  | leftSide _ _ _ _ => cases ht
  | sides _ _ _ _ _ => cases ht
  | lastLeft _ _ _ => cases ht
  | lastRight _ _ _ => cases ht
  | joined _ _ => cases ht
  | back _ _ => cases ht
  | zombie h => exact h

/-! ### Steps -/

/-- The simple commands that the events say are over. -/
def overIn (events : List Event) : Set ℕ := {i | .finish i ∈ events ∨ .cancel i ∈ events}

/-- The simple command may be started. -/
structure MayStart (D : Set ℕ) (b : ℕ) (c : Cmd CStr) (j : ℕ) (path : CStr) (argv : List CStr) :
    Prop where
  has : c.Has b j
  simple : c.simple[j - b]? = some argv
  path : path = binPath argv
  before : ∀ i, c.Before b i j → i ∈ D

/-- The process goes on with the command, and what is started may be started. -/
structure Stepped (D : Set ℕ) (b : ℕ) (c : Cmd CStr) (events : List Event) (t : Family)
    (orphans : List Family) : Prop where
  running : Running (D ∪ overIn events) b c t
  orphans : ∀ o ∈ orphans, ∃ b' c', Part (D ∪ overIn events) b c b' c' ∧
    Running (D ∪ overIn events) b' c' o
  starts : ∀ j path argv, .start j path argv ∈ events → MayStart D b c j path argv

section Steps

variable {D : Set ℕ} {b b' : ℕ} {c c' l r : Cmd CStr} {events : List Event} {t t' : Family}
  {orphans : List Family}

/-- A step without an event. -/
theorem Stepped.quiet (h : Running D b c t) : Stepped D b c [] t [] :=
  ⟨h.mono Set.subset_union_left, nofun, nofun⟩

theorem MayStart.lift {j : ℕ} {path : CStr} {argv : List CStr} (hpart : Part D b c b' c')
    (h : MayStart D b' c' j path argv) : MayStart D b c j path argv where
  has := hpart.has j h.has
  simple := (hpart.argv j h.has).trans h.simple
  path := h.path
  before := fun i hij => (hpart.before i j h.has hij).elim id (h.before i)

/-- A step of a part of the command. -/
theorem Stepped.lift (hpart : Part D b c b' c') (h : Stepped D b' c' events t orphans)
    (hrun : Running (D ∪ overIn events) b c t') : Stepped D b c events t' orphans where
  running := hrun
  orphans := by
    intro o ho
    obtain ⟨b'', c'', hpart', hrun'⟩ := h.orphans o ho
    exact ⟨b'', c'', (hpart.mono Set.subset_union_left).trans hpart', hrun'⟩
  starts := fun j path argv hj => (h.starts j path argv hj).lift hpart

theorem mem_overIn_cancels {i : ℕ} {P : Prog} (h : b ≤ i ∧ i < b + P.calls) :
    i ∈ overIn (cancels b P) :=
  Or.inr (List.mem_map.mpr ⟨i, List.mem_range'_1.mpr h, rfl⟩)

/-- A redirection fails, and nothing of the command is run. -/
theorem stepped_openFails {P : Prog} (h : Acts P c) :
    Stepped D b c (cancels b P) (.node .zombie []) [] where
  running := by
    refine .zombie fun i hi => Or.inr (mem_overIn_cancels ?_)
    rw [h.calls]
    exact Cmd.has_of_mem_foreground hi
  orphans := nofun
  starts := by
    intro j path argv hj
    obtain ⟨i, -, hi⟩ := List.mem_map.mp hj
    cases hi

/-- A process without children makes a step of its own. -/
theorem no_child {cs₁ cs₂ : List Family} {x : Family} (h : [] = cs₁ ++ x :: cs₂) : False :=
  List.append_ne_nil_of_right_ne_nil _ (List.cons_ne_nil _ _) h.symm

/-- An only child. -/
theorem only_child {cs₁ cs₂ : List Family} {x : Family} (h : [t] = cs₁ ++ x :: cs₂) :
    cs₁ = [] ∧ t = x ∧ cs₂ = [] := by
  cases cs₁ with
  | nil =>
    obtain ⟨rfl, rfl⟩ := List.cons.inj h
    exact ⟨rfl, rfl, rfl⟩
  | cons y cs₁ => exact (no_child (List.cons.inj h).2).elim

/-- The elder of two children, or the younger. -/
theorem two_children {cs₁ cs₂ : List Family} {x : Family} (h : [t, t'] = cs₁ ++ x :: cs₂) :
    (cs₁ = [] ∧ t = x ∧ cs₂ = [t']) ∨ (cs₁ = [t] ∧ t' = x ∧ cs₂ = []) := by
  cases cs₁ with
  | nil =>
    obtain ⟨rfl, rfl⟩ := List.cons.inj h
    exact Or.inl ⟨rfl, rfl, rfl⟩
  | cons y cs₁ =>
    obtain ⟨rfl, hrest⟩ := List.cons.inj h
    obtain ⟨rfl, rfl, rfl⟩ := only_child hrest
    exact Or.inr ⟨rfl, rfl, rfl⟩

theorem Acts.step {P : Prog} (hacts : Acts P c)
    (h : FamilyStep (.node (.shell b P) []) events t orphans) :
    Stepped D b c events t orphans := by
  induction hacts generalizing b t with
  | nothing =>
    cases h with
    | exit => exact .quiet (.zombie nofun)
    | child hcs => exact (no_child hcs).elim
  | @exec arg args status =>
    cases h with
    | execve =>
      refine ⟨.program, nofun, ?_⟩
      intro j path argv hj
      obtain hj | hj := List.mem_cons.mp hj
      · obtain ⟨rfl, rfl, rfl⟩ := Event.start.inj hj
        exact ⟨⟨le_rfl, Nat.lt_succ_self _⟩, by rw [Nat.sub_self]; rfl, rfl, nofun⟩
      · cases hj
    | execveFails =>
      refine ⟨.failed (Or.inr (Or.inl (by simp))), nofun, ?_⟩
      intro j path argv hj
      obtain hj | hj := List.mem_cons.mp hj
      · obtain ⟨rfl, rfl, rfl⟩ := Event.start.inj hj
        exact ⟨⟨le_rfl, Nat.lt_succ_self _⟩, by rw [Nat.sub_self]; rfl, rfl, nofun⟩
      · cases List.mem_singleton.mp hj
    | child hcs => exact (no_child hcs).elim
  | enter hacts ih =>
    cases h with
    | enter => exact .quiet (.acts hacts)
    | child hcs => exact (no_child hcs).elim
  | close hacts ih =>
    cases h with
    | close => exact .quiet (.acts hacts)
    | child hcs => exact (no_child hcs).elim
  | dup hacts ih =>
    cases h with
    | dup => exact .quiet (.acts hacts)
    | child hcs => exact (no_child hcs).elim
  | openFile hacts ih =>
    cases h with
    | openFile => exact .quiet (.acts hacts)
    | openFails => exact stepped_openFails hacts
    | child hcs => exact (no_child hcs).elim
  | redir hacts ih => exact .lift (part_redir D b _ _ _ _) (ih h) (.redir (ih h).running)
  | list hl hr =>
    cases h with
    | fork =>
      rw [hl.calls]
      exact .quiet (.left (.acts hl) hr)
    | child hcs => exact (no_child hcs).elim
  | pipe hacts ih =>
    cases h with
    | pipe p0 p1 id => exact .quiet (.acts (hacts p0 p1 id))
    | child hcs => exact (no_child hcs).elim
  | sides hl hr hR =>
    cases h with
    | fork =>
      rw [hl.calls]
      exact .quiet (.leftSide (.acts hl) hr hR)
    | child hcs => exact (no_child hcs).elim
  | back hacts ih =>
    cases h with
    | fork => exact .quiet (.back (.acts hacts))
    | child hcs => exact (no_child hcs).elim

/-- The process that has started both sides of a pipe. -/
theorem Joins.step {n : ℕ} {R : Prog} {tl tr : Family} (hR : Joins R) (hl : Running D b l tl)
    (hr : Running D (b + l.simple.length) r tr)
    (hstepl : ∀ {events t' orphans}, FamilyStep tl events t' orphans →
      Stepped D b l events t' orphans)
    (hstepr : ∀ {events t' orphans}, FamilyStep tr events t' orphans →
      Stepped D (b + l.simple.length) r events t' orphans)
    (h : FamilyStep (.node (.shell n R) [tl, tr]) events t orphans) :
    Stepped D b (.pipe l r) events t orphans := by
  have hchild : ∀ {cs₁ cs₂ : List Family} {x x' : Family}, [tl, tr] = cs₁ ++ x :: cs₂ →
      FamilyStep x events x' orphans →
      Stepped D b (.pipe l r) events (.node (.shell n R) (cs₁ ++ x' :: cs₂)) orphans := by
    intro cs₁ cs₂ x x' hcs hstep
    obtain ⟨rfl, rfl, rfl⟩ | ⟨rfl, rfl, rfl⟩ := two_children hcs
    · have hx := hstepl hstep
      exact .lift (part_pipe_left D b l r) hx
        (.sides hx.running (hr.mono Set.subset_union_left) hR)
    · have hx := hstepr hstep
      exact .lift (part_pipe_right D b l r) hx
        (.sides (hl.mono Set.subset_union_left) hx.running hR)
  cases hR with
  | waits =>
    cases h with
    | wait hcs =>
      obtain ⟨rfl, rfl, rfl⟩ | ⟨rfl, rfl, rfl⟩ := two_children hcs
      · exact .quiet (.lastRight (hl.over rfl) hr)
      · exact .quiet (.lastLeft hl (hr.over rfl))
    | child hcs hstep => exact hchild hcs hstep
  | close hR' =>
    cases h with
    | close => exact .quiet (.sides hl hr hR')
    | child hcs hstep => exact hchild hcs hstep

theorem over_exec {arg : CStr} {args : List CStr} (h : b ∈ D) : Over D b (.exec (arg :: args)) := by
  intro i hi
  obtain ⟨hle, hlt⟩ := Cmd.has_of_mem_foreground hi
  rwa [le_antisymm (Nat.le_of_lt_succ hlt) hle]

/-- **A step of a process** that runs a command. -/
theorem Running.step (hrun : Running D b c t) (h : FamilyStep t events t' orphans) :
    Stepped D b c events t' orphans := by
  induction hrun generalizing events t' orphans with
  | acts hacts => exact hacts.step h
  | program =>
    cases h with
    | finish =>
      refine ⟨.zombie (over_exec (Or.inr (Or.inl (List.mem_singleton.mpr rfl)))), nofun, ?_⟩
      intro j path argv hj
      cases List.mem_singleton.mp hj
    | child hcs => exact (no_child hcs).elim
  | failed hb =>
    cases h with
    | exit => exact .quiet (.zombie (over_exec hb))
    | child hcs => exact (no_child hcs).elim
  | redir hrun ih => exact .lift (part_redir D _ _ _ _ _) (ih h) (.redir (ih h).running)
  | left hl hr ih =>
    cases h with
    | wait hcs =>
      obtain ⟨rfl, rfl, rfl⟩ := only_child hcs
      exact .quiet (.right (hl.over rfl) (.acts hr))
    | child hcs hstep =>
      obtain ⟨rfl, rfl, rfl⟩ := only_child hcs
      exact .lift (part_list_left D _ _ _) (ih hstep) (.left (ih hstep).running hr)
  | right hl hr ih =>
    exact .lift (part_list_right hl) (ih h) (.right (hl.mono Set.subset_union_left) (ih h).running)
  | leftSide hl hr hR ih =>
    cases h with
    | fork => exact .quiet (.sides hl (.acts hr) hR)
    | child hcs hstep =>
      obtain ⟨rfl, rfl, rfl⟩ := only_child hcs
      exact .lift (part_pipe_left D _ _ _) (ih hstep) (.leftSide (ih hstep).running hr hR)
  | sides hl hr hR ihl ihr => exact hR.step hl hr ihl ihr h
  | lastLeft hl hr ih =>
    cases h with
    | wait hcs =>
      obtain ⟨rfl, rfl, rfl⟩ := only_child hcs
      exact .quiet (.joined (hl.over rfl) hr)
    | child hcs hstep =>
      obtain ⟨rfl, rfl, rfl⟩ := only_child hcs
      exact .lift (part_pipe_left D _ _ _) (ih hstep)
        (.lastLeft (ih hstep).running (hr.mono Set.subset_union_left))
  | lastRight hl hr ih =>
    cases h with
    | wait hcs =>
      obtain ⟨rfl, rfl, rfl⟩ := only_child hcs
      exact .quiet (.joined hl (hr.over rfl))
    | child hcs hstep =>
      obtain ⟨rfl, rfl, rfl⟩ := only_child hcs
      exact .lift (part_pipe_right D _ _ _) (ih hstep)
        (.lastRight (hl.mono Set.subset_union_left) (ih hstep).running)
  | joined hl hr =>
    cases h with
    | exit =>
      refine .quiet (.zombie ?_)
      intro i hi
      exact (List.mem_append.mp hi).elim (hl i) (hr i)
    | child hcs => exact (no_child hcs).elim
  | back hrun ih =>
    cases h with
    | exit =>
      refine ⟨.zombie nofun, ?_, nofun⟩
      intro o ho
      obtain rfl := List.mem_singleton.mp ho
      exact ⟨_, _, part_back _ _ _, hrun.mono Set.subset_union_left⟩
    | child hcs hstep =>
      obtain ⟨rfl, rfl, rfl⟩ := only_child hcs
      exact .lift (part_back D _ _) (ih hstep) (.back (ih hstep).running)
  | zombie hover =>
    cases h with
    | child hcs => exact (no_child hcs).elim

/-- The process has exited, or it or one of its children can go on. -/
def Progress (t : Family) : Prop :=
  t = .node .zombie [] ∨ ∃ events t' orphans, FamilyStep t events t' orphans

theorem progress_shell {b : ℕ} {P : Prog} {cs : List Family} (h : ∀ t ∈ cs, Progress t) :
    Progress (.node (.shell b P) cs) := by
  refine Or.inr ?_
  cases P with
  | enter role next => exact ⟨_, _, _, .enter⟩
  | exit status => exact ⟨_, _, _, .exit⟩
  | execve path argv failed => exact ⟨_, _, _, .execve⟩
  | close fd next => exact ⟨_, _, _, .close⟩
  | dup fd next => exact ⟨_, _, _, .dup⟩
  | openFile file mode next => exact ⟨_, _, _, .openFile⟩
  | pipe next => exact ⟨_, _, _, .pipe 0 0 0⟩
  | fork child parent => exact ⟨_, _, _, .fork⟩
  | wait pipe next =>
    cases cs with
    | nil => exact ⟨_, _, _, .waitFails⟩
    | cons t cs =>
      obtain rfl | ⟨events, t', orphans, hstep⟩ := h t List.mem_cons_self
      · exact ⟨_, _, _, .wait (List.nil_append _).symm⟩
      · exact ⟨_, _, _, .child (List.nil_append _).symm hstep⟩

theorem Running.progress (h : Running D b c t) : Progress t := by
  induction h with
  | acts _ => exact progress_shell nofun
  | program => exact Or.inr ⟨_, _, _, .finish⟩
  | failed _ => exact progress_shell nofun
  | redir _ ih => exact ih
  | left _ _ ih => exact progress_shell fun _ ht => List.mem_singleton.mp ht ▸ ih
  | right _ _ ih => exact ih
  | leftSide _ _ _ ih => exact progress_shell fun _ ht => List.mem_singleton.mp ht ▸ ih
  | sides _ _ _ ihl ihr =>
    refine progress_shell fun t ht => ?_
    obtain rfl | ht := List.mem_cons.mp ht
    · exact ihl
    · exact List.mem_singleton.mp ht ▸ ihr
  | lastLeft _ _ ih => exact progress_shell fun _ ht => List.mem_singleton.mp ht ▸ ih
  | lastRight _ _ ih => exact progress_shell fun _ ht => List.mem_singleton.mp ht ▸ ih
  | joined _ _ => exact progress_shell nofun
  | back _ ih => exact progress_shell fun _ ht => List.mem_singleton.mp ht ▸ ih
  | zombie _ => exact Or.inl rfl

end Steps

/-! ### Runs -/

theorem overIn_append_subset (events events' : List Event) :
    overIn events ∪ overIn events' ⊆ overIn (events ++ events') := by
  rintro i ((hi | hi) | (hi | hi))
  · exact Or.inl (List.mem_append_left _ hi)
  · exact Or.inr (List.mem_append_left _ hi)
  · exact Or.inl (List.mem_append_right _ hi)
  · exact Or.inr (List.mem_append_right _ hi)

theorem MayStart.mono {D D' : Set ℕ} {b j : ℕ} {c : Cmd CStr} {path : CStr} {argv : List CStr}
    (h : MayStart D b c j path argv) (hD : D ⊆ D') : MayStart D' b c j path argv :=
  ⟨h.has, h.simple, h.path, fun i hij => hD (h.before i hij)⟩

/-- Every process runs a part of the command, and everything has been started in order. -/
structure Orderly (c : Cmd CStr) (s : System) : Prop where
  running : ∀ t ∈ s.families, ∃ b' c', Part (overIn s.log) 0 c b' c' ∧
    Running (overIn s.log) b' c' t
  starts : ∀ log log' j path argv, s.log = log ++ .start j path argv :: log' →
    MayStart (overIn log) 0 c j path argv

theorem orderly_init (lines : List (Option Ready)) :
    Orderly (sessionCmd lines) (System.init lines) where
  running := by
    intro t ht
    obtain rfl := List.mem_singleton.mp ht
    exact ⟨0, _, .refl _ _ _, .acts (acts_session lines)⟩
  starts := fun _ _ _ _ _ hlog => (List.append_ne_nil_of_right_ne_nil _ (List.cons_ne_nil _ _)
    hlog.symm).elim

theorem Orderly.step {c : Cmd CStr} {s s' : System} (hs : Orderly c s) (h : SystemStep s s') :
    Orderly c s' := by
  cases h with
  | @run before after t t' events orphans log hstep =>
    have hD := overIn_append_subset log events
    have hD' := Set.subset_union_left.trans hD
    obtain ⟨b', c', hpart, hrun⟩ := hs.running t (by simp)
    have hstepped := hrun.step hstep
    have hpart' := hpart.mono hD'
    refine ⟨?_, ?_⟩
    · intro x hx
      obtain hx | hx := List.mem_append.mp hx
      · rw [List.mem_append, List.mem_cons] at hx
        obtain hx | rfl | hx := hx
        · obtain ⟨b'', c'', hp, hr⟩ := hs.running x (List.mem_append_left _ hx)
          exact ⟨b'', c'', hp.mono hD', hr.mono hD'⟩
        · exact ⟨b', c', hpart', hstepped.running.mono hD⟩
        · obtain ⟨b'', c'', hp, hr⟩ :=
            hs.running x (List.mem_append_right _ (List.mem_cons_of_mem _ hx))
          exact ⟨b'', c'', hp.mono hD', hr.mono hD'⟩
      · obtain ⟨b'', c'', hp, hr⟩ := hstepped.orphans x hx
        exact ⟨b'', c'', hpart'.trans (hp.mono hD), hr.mono hD⟩
    · intro pre post j path argv hlog
      have hnew : ∀ log', pre = log ++ log' → .start j path argv ∈ events →
          MayStart (overIn pre) 0 c j path argv := by
        rintro log' rfl hmem
        exact ((hstepped.starts j path argv hmem).lift hpart).mono
          (Set.subset_union_left.trans (overIn_append_subset log log'))
      obtain ⟨log', hpre, rfl⟩ | ⟨log', rfl, hpost⟩ := List.append_eq_append_iff.mp hlog
      · exact hnew log' hpre (List.mem_append_right _ List.mem_cons_self)
      · cases log' with
        | nil =>
          rw [List.nil_append] at hpost
          exact hnew [] (by rw [List.append_nil, List.append_nil]) (hpost ▸ List.mem_cons_self)
        | cons event log' =>
          obtain ⟨rfl, -⟩ := List.cons.inj hpost
          exact hs.starts pre log' j path argv rfl
theorem Runs.orderly {n : ℕ} {lines : List (Option Ready)} {s : System}
    (h : Runs n (System.init lines) s) : Orderly (sessionCmd lines) s := by
  generalize hinit : System.init lines = s₀ at h
  induction h with
  | zero s₀ => exact hinit ▸ orderly_init lines
  | succ _ hstep ih => exact (ih hinit).step hstep

/-- The line `a;b`. -/
def twoCommands : List UInt8 := cstr ['a', ';', 'b', '\n']

theorem commands_twoCommands : commands twoCommands =
    [some ⟨.list (.exec [cstr ['a']]) (.exec [cstr ['b']]), 360⟩] := by
  have hmain : main twoCommands = [.parsecmd twoCommands] := by
    rw [show twoCommands = cstr ['a', ';', 'b'] ++ newline :: [] from rfl,
      main_line (by decide) (by decide) (by decide), main_nil]
    rfl
  have hparsed : parsed twoCommands =
      some ⟨.list (.exec [cstr ['a']]) (.exec [cstr ['b']]), 360⟩ := by decide +kernel
  rw [commands, hmain]
  show [parsed twoCommands] = _
  rw [hparsed]

section Example

open FamilyStep

theorem inChild {a : Activity} {t t' : Family} {events : List Event} {orphans : List Family}
    (h : FamilyStep t events t' orphans) : FamilyStep (.node a [t]) events (.node a [t']) orphans :=
  .child (List.nil_append _).symm h

theorem only {t t' : Family} {events log : List Event} (h : FamilyStep t events t' []) :
    SystemStep ⟨[t], log⟩ ⟨[t'], log ++ events⟩ :=
  @SystemStep.run [] [] _ _ _ _ _ h

theorem waitOnly {b : ℕ} {pipe : Option ℕ} {next : Prog} :
    FamilyStep (.node (.shell b (.wait pipe next)) [.node .zombie []]) []
      (.node (.shell b next) []) [] :=
  .wait (List.nil_append _).symm

/-- A run of the shell on it, to its end. -/
theorem runs_twoCommands : ∃ s, Runs 12 (System.init (commands twoCommands)) s ∧
    s.families = [.node .zombie []] ∧
    s.log = [.start 0 (cstr ['/', 'b', 'i', 'n', '/', 'a']) [cstr ['a']], .finish 0,
      .start 1 (cstr ['/', 'b', 'i', 'n', '/', 'b']) [cstr ['b']], .finish 1] := by
  rw [commands_twoCommands]
  have h0 := Runs.zero (System.init [some ⟨.list (.exec [cstr ['a']]) (.exec [cstr ['b']]), 360⟩])
  have h1 := Runs.succ h0 (only fork)
  have h2 := Runs.succ h1 (only (inChild enter))
  have h3 := Runs.succ h2 (only (inChild fork))
  have h4 := Runs.succ h3 (only (inChild (inChild enter)))
  have h5 := Runs.succ h4 (only (inChild (inChild execve)))
  have h6 := Runs.succ h5 (only (inChild (inChild finish)))
  have h7 := Runs.succ h6 (only (inChild waitOnly))
  have h8 := Runs.succ h7 (only (inChild enter))
  have h9 := Runs.succ h8 (only (inChild execve))
  have h10 := Runs.succ h9 (only (inChild finish))
  have h11 := Runs.succ h10 (only waitOnly)
  exact ⟨_, .succ h11 (only exit), rfl, rfl⟩

end Example

/-- **The order of commands.**  Whatever is started is a simple command of the input, and all that
has to be over before is over. -/
theorem Runs.started_in_order {stdin : List UInt8} {n : ℕ} {s : System}
    (h : Runs n (System.init (commands stdin)) s) {log log' : List Event} {j : ℕ} {path : CStr}
    {argv : List CStr} (hlog : s.log = log ++ .start j path argv :: log') :
    (sessionCmd (commands stdin)).simple[j]? = some argv ∧ path = binPath argv ∧
      ∀ i, (sessionCmd (commands stdin)).Before 0 i j → .finish i ∈ log ∨ .cancel i ∈ log := by
  have hmay := h.orderly.starts log log' j path argv hlog
  exact ⟨hmay.simple, hmay.path, hmay.before⟩

theorem started_in_order_twoCommands : ∃ s log log',
    Runs 12 (System.init (commands twoCommands)) s ∧
    s.log = log ++ .start 1 (binPath [cstr ['b']]) [cstr ['b']] :: log' ∧
    (sessionCmd (commands twoCommands)).Before 0 0 1 ∧ (.finish 0 ∈ log ∨ .cancel 0 ∈ log) := by
  obtain ⟨s, hrun, -, hlog⟩ := runs_twoCommands
  have hlog' : s.log = [.start 0 (binPath [cstr ['a']]) [cstr ['a']], .finish 0] ++
      .start 1 (binPath [cstr ['b']]) [cstr ['b']] :: [.finish 1] := hlog
  have hbefore : (sessionCmd (commands twoCommands)).Before 0 0 1 := by
    rw [commands_twoCommands]
    exact Or.inr (Or.inl (Or.inl ⟨List.mem_singleton.mpr rfl, by decide, by decide⟩))
  exact ⟨s, _, _, hrun, hlog', hbefore, (Runs.started_in_order hrun hlog').2.2 0 hbefore⟩

theorem activitiesOf_zombies {ts : List Family} (h : ∀ t ∈ ts, t = .node .zombie []) :
    ∀ a ∈ activitiesOf ts, a = .zombie := by
  induction ts with
  | nil => exact nofun
  | cons t ts ih =>
    intro a ha
    obtain rfl := h t List.mem_cons_self
    obtain ha | ha := List.mem_append.mp ha
    · exact List.mem_singleton.mp ha
    · exact ih (fun t ht => h t (List.mem_cons_of_mem _ ht)) a ha

theorem exists_step {s : System} {t t' : Family} {events : List Event} {orphans : List Family}
    (ht : t ∈ s.families) (h : FamilyStep t events t' orphans) : ∃ s', SystemStep s s' := by
  obtain ⟨families, log⟩ := s
  obtain ⟨before, after, rfl⟩ := List.append_of_mem ht
  exact ⟨_, .run h⟩

/-- **Everything is done once.**  There is no run without an end; no simple command is started
twice; and if no process can go on, all of them have exited, and every simple command of the input
has been started and has finished, or is cancelled. -/
theorem Runs.complete {stdin : List UInt8} {n : ℕ} {s : System}
    (h : Runs n (System.init (commands stdin)) s) :
    n ≤ (session (commands stdin)).work ∧ (s.log.filterMap Event.taken).Nodup ∧
      ((∃ s', SystemStep s s') ∨
        (∀ t ∈ s.families, t = .node .zombie []) ∧
        (s.log.filterMap Event.taken).Perm
          (List.range (sessionCmd (commands stdin)).simple.length) ∧
        (s.log.filterMap Event.started).Perm (s.log.filterMap Event.finished)) := by
  obtain ⟨hbal, hwork⟩ := h.balanced
  have hnodup := hbal.todo.nodup_iff.mp List.nodup_range
  refine ⟨by omega, (List.nodup_append.mp hnodup).1, ?_⟩
  by_cases hzombie : ∀ t ∈ s.families, t = .node .zombie []
  · have hnone : ∀ a ∈ s.activities, a = .zombie := activitiesOf_zombies hzombie
    have htodo := hbal.todo
    have hrunning := hbal.running
    rw [List.flatMap_eq_nil_iff.mpr fun a ha => by rw [hnone a ha]; rfl, List.append_nil]
      at htodo hrunning
    rw [(acts_session _).calls] at htodo
    exact Or.inr ⟨hzombie, htodo.symm, hrunning⟩
  · obtain ⟨t, ht, hne⟩ := not_forall₂.mp hzombie
    obtain ⟨b, c, -, hrun⟩ := h.orderly.running t ht
    obtain hz | ⟨events, t', orphans, hstep⟩ := hrun.progress
    · exact absurd hz hne
    · exact Or.inl (exists_step ht hstep)

theorem complete_twoCommands : ∃ s, Runs 12 (System.init (commands twoCommands)) s ∧
    s.families = [.node .zombie []] ∧ (s.log.filterMap Event.taken).Nodup ∧
    ((∃ s', SystemStep s s') ∨
      (∀ t ∈ s.families, t = .node .zombie []) ∧
      (s.log.filterMap Event.taken).Perm
        (List.range (sessionCmd (commands twoCommands)).simple.length) ∧
      (s.log.filterMap Event.started).Perm (s.log.filterMap Event.finished)) := by
  obtain ⟨s, hrun, hfamilies, -⟩ := runs_twoCommands
  exact ⟨s, hrun, hfamilies, (Runs.complete hrun).2⟩

end Jyyos.Sh
