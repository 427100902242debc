import Jyyos.Sh.Processes
import Mathlib.Algebra.Ring.Nat
import Mathlib.Data.List.Perm.Basic

/-!
# Every call is made once

What a step does to the processes, without regard to who is whose child: one of them goes on, and
may leave a new process (`Local`).  So no call of `execve` is lost or made twice: at any time, each
of them has been started, is cancelled, or is still to come in exactly one process
(`Accounted`).  And every step takes something from a bounded amount of work, so that there is no
run without an end.

Of a line of the input, the commands are run for which the arena has room (`parsed_eq_some_iff`,
`inArena_runcmd`).
-/

namespace Jyyos.Sh

/-! ### The processes of a family -/

mutual

/-- All processes of a family. -/
def Family.activities : Family → List Activity
  | .node a cs => a :: activitiesOf cs

def activitiesOf : List Family → List Activity
  | [] => []
  | c :: cs => c.activities ++ activitiesOf cs

end

theorem activitiesOf_append (cs cs' : List Family) :
    activitiesOf (cs ++ cs') = activitiesOf cs ++ activitiesOf cs' := by
  induction cs with
  | nil => rfl
  | cons c cs ih => rw [List.cons_append, activitiesOf, activitiesOf, ih, List.append_assoc]

theorem activitiesOf_split (cs cs' : List Family) (c : Family) :
    (activitiesOf (cs ++ c :: cs')).Perm (c.activities ++ activitiesOf (cs ++ cs')) := by
  rw [activitiesOf_append, activitiesOf_append, activitiesOf]
  exact List.perm_append_comm_assoc _ _ _

open Activity in
/-- What becomes of the process that makes a step. -/
inductive Local : Activity → List Event → List Activity → Prop
  | enter {b role next} : Local (shell b (.enter role next)) [] [shell b next]
  | exit {b status} : Local (shell b (.exit status)) [] [zombie]
  | execve {b path argv failed} :
      Local (shell b (.execve path argv failed)) (.start b path argv :: cancels (b + 1) failed)
        [program b]
  | execveFails {b path argv failed} :
      Local (shell b (.execve path argv failed)) [.start b path argv, .finish b]
        [shell (b + 1) failed]
  | close {b fd next} : Local (shell b (.close fd next)) [] [shell b next]
  | dup {b fd next} : Local (shell b (.dup fd next)) [] [shell b next]
  | openFile {b file mode next} : Local (shell b (.openFile file mode next)) [] [shell b next]
  | openFails {b file mode next} :
      Local (shell b (.openFile file mode next)) (cancels b next) [zombie]
  | pipe {b next} (p0 p1 id : ℕ) : Local (shell b (.pipe next)) [] [shell b (next p0 p1 id)]
  | fork {b child parent} :
      Local (shell b (.fork child parent)) [] [shell (b + child.calls) parent, shell b child]
  | wait {b pipe next} : Local (shell b (.wait pipe next)) [] [shell b next]
  | finish {number} : Local (program number) [.finish number] [zombie]

/-- One process makes the step; a zombie may disappear. -/
structure Moves (before after : List Activity) (events : List Event) : Prop where
  out : ∃ a zs next rest, (∀ z ∈ zs, z = Activity.zombie) ∧ Local a events next ∧
    before.Perm (a :: (zs ++ rest)) ∧ after.Perm (next ++ rest)

/-- A process goes on, and keeps its children or loses them all. -/
theorem Moves.own {a a' : Activity} {events : List Event} (h : Local a events [a'])
    (rest : List Activity) : Moves (a :: rest) (a' :: rest) events :=
  ⟨a, [], [a'], rest, nofun, h, .refl _, .refl _⟩

theorem Moves.perm {before after before' after' : List Activity} {events : List Event}
    (h : Moves before after events) (hb : before'.Perm before) (ha : after'.Perm after) :
    Moves before' after' events := by
  obtain ⟨a, zs, next, rest, hzs, hlocal, hbefore, hafter⟩ := h.out
  exact ⟨a, zs, next, rest, hzs, hlocal, hb.trans hbefore, ha.trans hafter⟩

/-- The other processes do not matter. -/
theorem Moves.frame {before after : List Activity} {events : List Event}
    (h : Moves before after events) (others : List Activity) :
    Moves (before ++ others) (after ++ others) events := by
  obtain ⟨a, zs, next, rest, hzs, hlocal, hbefore, hafter⟩ := h.out
  refine ⟨a, zs, next, rest ++ others, hzs, hlocal, ?_, ?_⟩
  · rw [← List.append_assoc, ← List.cons_append]
    exact hbefore.append_right others
  · rw [← List.append_assoc]
    exact hafter.append_right others

theorem FamilyStep.moves {t t' : Family} {events : List Event} {orphans : List Family}
    (h : FamilyStep t events t' orphans) :
    Moves t.activities (t'.activities ++ activitiesOf orphans) events := by
  induction h with
  | enter => exact (Moves.own .enter _).perm (.refl _) (by rw [activitiesOf, List.append_nil]; rfl)
  | exit => exact Moves.own .exit _
  | execve =>
    exact (Moves.own .execve _).perm (.refl _) (by rw [activitiesOf, List.append_nil]; rfl)
  | execveFails =>
    exact (Moves.own .execveFails _).perm (.refl _) (by rw [activitiesOf, List.append_nil]; rfl)
  | close => exact (Moves.own .close _).perm (.refl _) (by rw [activitiesOf, List.append_nil]; rfl)
  | dup => exact (Moves.own .dup _).perm (.refl _) (by rw [activitiesOf, List.append_nil]; rfl)
  | openFile =>
    exact (Moves.own .openFile _).perm (.refl _) (by rw [activitiesOf, List.append_nil]; rfl)
  | openFails => exact Moves.own .openFails _
  | pipe p0 p1 id =>
    exact (Moves.own (.pipe p0 p1 id) _).perm (.refl _)
      (by rw [activitiesOf, List.append_nil]; rfl)
  | @fork b child parent cs =>
    refine ⟨_, [], _, activitiesOf cs, nofun, .fork, .refl _, ?_⟩
    rw [Family.activities, activitiesOf_append, activitiesOf, List.append_nil]
    exact (List.perm_append_singleton (Activity.shell b child) (activitiesOf cs)).cons _
  | @wait b pipe next cs cs₁ cs₂ hcs =>
    subst hcs
    refine ⟨_, [.zombie], _, activitiesOf (cs₁ ++ cs₂), fun z hz => List.mem_singleton.mp hz, .wait,
      (activitiesOf_split cs₁ cs₂ _).cons _, ?_⟩
    rw [activitiesOf, List.append_nil]
    rfl
  | waitFails => exact Moves.own .wait _
  | finish => exact Moves.own .finish _
  | @child a cs c cs₁ cs₂ events c' orphans hcs step ih =>
    subst hcs
    refine (ih.frame (a :: activitiesOf (cs₁ ++ cs₂))).perm ?_ ?_
    · exact ((activitiesOf_split cs₁ cs₂ c).cons a).trans List.perm_middle.symm
    · have hsplit := ((activitiesOf_split cs₁ cs₂ c').cons a).append_right (activitiesOf orphans)
      refine hsplit.trans (List.Perm.trans ?_ List.perm_middle.symm)
      rw [List.cons_append, List.append_assoc, List.append_assoc]
      exact (List.perm_append_comm.append_left _).cons a

/-! ### Accounts -/

/-- The call that is made or cancelled. -/
def Event.taken : Event → Option ℕ
  | .start number _ _ => some number
  | .finish _ => none
  | .cancel number => some number

def Event.started : Event → Option ℕ
  | .start number _ _ => some number
  | .finish _ => none
  | .cancel _ => none

def Event.finished : Event → Option ℕ
  | .start _ _ _ => none
  | .finish number => some number
  | .cancel _ => none

/-- The calls that a process still has to make. -/
def Activity.todo : Activity → List ℕ
  | .shell b prog => List.range' b prog.calls
  | .program _ => []
  | .zombie => []

/-- The program that a process runs. -/
def Activity.running : Activity → List ℕ
  | .shell _ _ => []
  | .program number => [number]
  | .zombie => []

/-- The steps that a program has left, at most. -/
def Prog.work : Prog → ℕ
  | .enter _ next => next.work + 1
  | .exit _ => 1
  | .execve _ _ failed => failed.work + 2
  | .close _ next => next.work + 1
  | .dup _ next => next.work + 1
  | .openFile _ _ next => next.work + 1
  | .pipe next => (next 0 0 0).work + 1
  | .fork child parent => child.work + parent.work + 1
  | .wait _ next => next.work + 1

def Activity.work : Activity → ℕ
  | .shell _ prog => prog.work
  | .program _ => 1
  | .zombie => 0

/-- What a program does after `pipe` does not depend on the descriptors, as far as calls and steps
are counted. -/
def Prog.Uniform : Prog → Prop
  | .enter _ next => next.Uniform
  | .exit _ => True
  | .execve _ _ failed => failed.Uniform
  | .close _ next => next.Uniform
  | .dup _ next => next.Uniform
  | .openFile _ _ next => next.Uniform
  | .pipe next => ∀ p0 p1 id, (next p0 p1 id).calls = (next 0 0 0).calls ∧
      (next p0 p1 id).work = (next 0 0 0).work ∧ (next p0 p1 id).Uniform
  | .fork child parent => child.Uniform ∧ parent.Uniform
  | .wait _ next => next.Uniform

def Activity.Uniform : Activity → Prop
  | .shell _ prog => prog.Uniform
  | .program _ => True
  | .zombie => True

theorem taken_cancels (b : ℕ) (prog : Prog) :
    (cancels b prog).filterMap Event.taken = List.range' b prog.calls := by
  rw [cancels, List.filterMap_map]
  exact List.filterMap_some

theorem started_cancels (b : ℕ) (prog : Prog) :
    (cancels b prog).filterMap Event.started = [] := by
  rw [cancels, List.filterMap_map]
  exact List.filterMap_eq_nil_iff.mpr fun _ _ => rfl

theorem finished_cancels (b : ℕ) (prog : Prog) :
    (cancels b prog).filterMap Event.finished = [] := by
  rw [cancels, List.filterMap_map]
  exact List.filterMap_eq_nil_iff.mpr fun _ _ => rfl

theorem work_pos (prog : Prog) : 0 < prog.work := by
  cases prog <;> exact Nat.succ_pos _

/-- What a step takes from some processes, and leaves to others. -/
structure Accounted (before after : List Activity) (events : List Event) : Prop where
  uniform : ∀ a ∈ after, a.Uniform
  todo : (before.flatMap Activity.todo).Perm
    (events.filterMap Event.taken ++ after.flatMap Activity.todo)
  running : (events.filterMap Event.started ++ before.flatMap Activity.running).Perm
    (events.filterMap Event.finished ++ after.flatMap Activity.running)
  work : (after.map Activity.work).sum < (before.map Activity.work).sum

/-- A step of the code of the shell without an event. -/
theorem accounted_quiet {b : ℕ} {prog next : Prog} (hu : next.Uniform)
    (hcalls : prog.calls = next.calls) (hwork : next.work < prog.work) :
    Accounted [.shell b prog] [.shell b next] [] where
  uniform := fun a ha => List.mem_singleton.mp ha ▸ hu
  todo := by
    show (List.range' b prog.calls ++ []).Perm (List.range' b next.calls ++ [])
    rw [hcalls]
  running := .refl _
  work := by simpa [Activity.work] using hwork

/-- The end of a process. -/
theorem accounted_end {a : Activity} {events : List Event}
    (htodo : a.todo = events.filterMap Event.taken)
    (hrunning : events.filterMap Event.started ++ a.running = events.filterMap Event.finished)
    (hwork : 0 < a.work) : Accounted [a] [.zombie] events where
  uniform := fun a ha => List.mem_singleton.mp ha ▸ trivial
  todo := by
    show (a.todo ++ []).Perm (events.filterMap Event.taken ++ [])
    rw [htodo]
  running := by
    show (events.filterMap Event.started ++ (a.running ++ [])).Perm _
    rw [List.append_nil, hrunning]
    exact .of_eq (List.append_nil _).symm
  work := by simpa [Activity.work] using hwork

theorem Local.accounted {a : Activity} {events : List Event} {next : List Activity}
    (h : Local a events next) (hu : a.Uniform) : Accounted [a] next events := by
  cases h with
  | enter => exact accounted_quiet hu rfl (Nat.lt_succ_self _)
  | exit => exact accounted_end rfl rfl (work_pos _)
  | @execve b path argv failed =>
    refine ⟨fun a ha => List.mem_singleton.mp ha ▸ trivial, ?_, ?_, ?_⟩
    · show (List.range' b (failed.calls + 1) ++ []).Perm
        (b :: (cancels (b + 1) failed).filterMap Event.taken ++ [])
      rw [taken_cancels, List.range'_succ]
    · show (b :: (cancels (b + 1) failed).filterMap Event.started ++ []).Perm
        ((cancels (b + 1) failed).filterMap Event.finished ++ [b])
      rw [started_cancels, finished_cancels]
      exact .refl _
    · simp [Activity.work, Prog.work]
  | @execveFails b path argv failed =>
    refine ⟨fun a ha => List.mem_singleton.mp ha ▸ hu, ?_, .refl _, ?_⟩
    · show (List.range' b (failed.calls + 1) ++ []).Perm _
      rw [List.range'_succ]
      exact .refl _
    · simp [Activity.work, Prog.work]
  | close => exact accounted_quiet hu rfl (Nat.lt_succ_self _)
  | dup => exact accounted_quiet hu rfl (Nat.lt_succ_self _)
  | openFile => exact accounted_quiet hu rfl (Nat.lt_succ_self _)
  | openFails =>
    refine accounted_end (taken_cancels _ _).symm ?_ (work_pos _)
    rw [started_cancels, finished_cancels]
    rfl
  | pipe p0 p1 id =>
    exact accounted_quiet (hu p0 p1 id).2.2 (hu p0 p1 id).1.symm
      (Nat.lt_succ_of_le (hu p0 p1 id).2.1.le)
  | @fork b child parent =>
    refine ⟨?_, ?_, .refl _, ?_⟩
    · intro a ha
      obtain rfl | ha := List.mem_cons.mp ha
      · exact hu.2
      · exact List.mem_singleton.mp ha ▸ hu.1
    · show (List.range' b (child.calls + parent.calls) ++ []).Perm
        (List.range' (b + child.calls) parent.calls ++ (List.range' b child.calls ++ []))
      rw [List.append_nil, List.append_nil, ← List.range'_append_1]
      exact List.perm_append_comm
    · simp only [List.map_cons, List.map_nil, List.sum_cons, List.sum_nil, Activity.work, Prog.work]
      omega
  | wait => exact accounted_quiet hu rfl (Nat.lt_succ_self _)
  | finish => exact accounted_end rfl rfl Nat.one_pos

/-- What holds for the process that makes the step holds for all of them together. -/
theorem Moves.accounted {before after : List Activity} {events : List Event}
    (h : Moves before after events) (hu : ∀ a ∈ before, a.Uniform) :
    Accounted before after events := by
  obtain ⟨a, zs, next, rest, hzs, hlocal, hbefore, hafter⟩ := h.out
  have hacc := hlocal.accounted (hu a (hbefore.mem_iff.mpr (List.mem_cons_self ..)))
  have hzombie : ∀ {β : Type} (f : Activity → List β), f .zombie = [] → zs.flatMap f = [] := by
    intro β f hf
    exact List.flatMap_eq_nil_iff.mpr fun z hz => hzs z hz ▸ hf
  refine ⟨?_, ?_, ?_, ?_⟩
  · intro x hx
    obtain hx | hx := List.mem_append.mp (hafter.mem_iff.mp hx)
    · exact hacc.uniform x hx
    · exact hu x (hbefore.mem_iff.mpr (List.mem_cons_of_mem _ (List.mem_append_right _ hx)))
  · have htodo := hacc.todo.append_right (rest.flatMap Activity.todo)
    refine (hbefore.flatMap_right _).trans (List.Perm.trans ?_
      ((hafter.flatMap_right _).symm.append_left _))
    rw [List.flatMap_cons, List.flatMap_append, hzombie _ rfl, List.nil_append,
      List.flatMap_append, ← List.append_assoc]
    rwa [List.flatMap_singleton] at htodo
  · have hrunning := hacc.running.append_right (rest.flatMap Activity.running)
    refine ((hbefore.flatMap_right _).append_left _).trans (List.Perm.trans ?_
      ((hafter.flatMap_right _).symm.append_left _))
    rw [List.flatMap_cons, List.flatMap_append, hzombie _ rfl, List.nil_append,
      List.flatMap_append, ← List.append_assoc, ← List.append_assoc]
    rwa [List.flatMap_singleton] at hrunning
  · have hwork := hacc.work
    have hb := (hbefore.map Activity.work).sum_eq
    have ha := (hafter.map Activity.work).sum_eq
    rw [List.map_append, List.sum_append] at ha
    rw [List.map_cons, List.sum_cons, List.map_append, List.sum_append] at hb
    rw [List.map_cons, List.map_nil, List.sum_cons, List.sum_nil] at hwork
    omega

/-! ### The programs of the shell -/

theorem uniform_runcmd (cmd : Cmd CStr) : (runcmd cmd).Uniform := by
  induction cmd with
  | exec argv =>
    cases argv with
    | nil => trivial
    | cons arg args => trivial
  | redir cmd file mode fd ih => exact ih
  | list left right ihl ihr => exact ⟨ihl, ihr⟩
  | pipe left right ihl ihr => exact fun _ _ _ => ⟨rfl, rfl, ihl, ihr, trivial⟩
  | back cmd ih => exact ⟨ih, trivial⟩

/-! ### The arena -/

theorem foldlM_zalloc (sz : ℕ) (sizes : List ℕ) (freem : ℕ) :
    (sz :: sizes).foldlM zalloc freem =
      if freem + (sz :: sizes).sum < arenaSize then some (freem + (sz :: sizes).sum) else none := by
  induction sizes generalizing freem sz with
  | nil =>
    rw [List.foldlM_cons, zalloc, List.sum_singleton]
    split_ifs <;> rfl
  | cons sz' sizes ih =>
    rw [List.foldlM_cons, zalloc, List.sum_cons, ← Nat.add_assoc]
    by_cases hfit : freem + sz < arenaSize
    · rw [if_pos hfit]
      exact ih sz' (freem + sz)
    · rw [if_neg hfit, if_neg fun h => hfit (lt_of_le_of_lt (Nat.le_add_right _ _) h)]
      rfl

theorem zallocs_ne_nil {W : Type} (cmd : Cmd W) : cmd.zallocs ≠ [] := by
  cases cmd <;> simp [Cmd.zallocs]

/-- A line is run iff the grammar derives it and its nodes have room together. -/
theorem parsed_eq_some_iff {s : CStr} {line : Ready} :
    parsed s = some line ↔ ∃ mem cmd, parsecmd (4 * s.length + 4) s = .ok (mem, cmd) ∧
      cmd.zallocs.sum < arenaSize ∧ line = ⟨cmd.resolve mem, cmd.zallocs.sum⟩ := by
  unfold parsed
  cases hparse : parsecmd (4 * s.length + 4) s with
  | error e => simp
  | ok r =>
    obtain ⟨sz, sizes, hsizes⟩ := List.exists_cons_of_ne_nil (zallocs_ne_nil r.2)
    simp only [hsizes, foldlM_zalloc, Nat.zero_add]
    split_ifs with hfit
    · refine ⟨fun h => ⟨r.1, r.2, rfl, hsizes ▸ hfit, ?_⟩, ?_⟩
      · rw [hsizes]
        exact (Option.some.inj h).symm
      · rintro ⟨mem, cmd, hr, -, rfl⟩
        cases hr
        rw [hsizes]
        rfl
    · refine ⟨fun h => absurd h.symm (Option.some_ne_none _), ?_⟩
      rintro ⟨mem, cmd, hr, hfit', -⟩
      cases hr
      exact absurd (hsizes ▸ hfit') hfit

/-- With the empty one at the end, these are 21 commands and 22 commands. -/
example : parsed (List.replicate 20 (cstr ['a', ';'])).flatten ≠ none ∧
    parsed (List.replicate 21 (cstr ['a', ';'])).flatten = none := by decide +kernel

/-- The tree with the simple commands for whose paths there is room; the other ones end like a
command without words. -/
def Cmd.inArena (freem : ℕ) : Cmd CStr → Cmd CStr
  | .exec [] => .exec []
  | .exec (arg :: args) =>
    if freem + (5 + arg.length + 1) < arenaSize then .exec (arg :: args) else .exec []
  | .redir cmd file mode fd => .redir (cmd.inArena freem) file mode fd
  | .pipe left right => .pipe (left.inArena freem) (right.inArena freem)
  | .list left right => .list (left.inArena freem) (right.inArena freem)
  | .back cmd => .back (cmd.inArena freem)

theorem inArena_runcmd (freem : ℕ) (cmd : Cmd CStr) :
    (runcmd cmd).inArena freem = runcmd (cmd.inArena freem) := by
  induction cmd with
  | exec argv =>
    cases argv with
    | nil => rfl
    | cons arg args =>
      have hlen : (cstr ['/', 'b', 'i', 'n', '/'] ++ arg).length = 5 + arg.length := by
        rw [List.length_append]
        rfl
      rw [runcmd, Prog.inArena, Cmd.inArena, zalloc, hlen]
      split_ifs <;> rfl
  | redir cmd file mode fd ih =>
    show Prog.close fd (.openFile file mode (.enter .plain _)) = _
    rw [ih]
    rfl
  | list left right ihl ihr =>
    show Prog.fork (.enter .plain _) (.wait none (.enter .plain _)) = _
    rw [ihl, ihr]
    rfl
  | pipe left right ihl ihr =>
    show Prog.pipe (fun p0 p1 id =>
      .fork (.close 1 (.dup p1 (.close p0 (.close p1 (.enter (.left id) _)))))
        (.fork (.close 0 (.dup p0 (.close p0 (.close p1 (.enter (.right id) _))))) _)) = _
    rw [ihl, ihr]
    rfl
  | back cmd ih =>
    show Prog.fork (.enter .plain _) (.exit 0) = _
    rw [ih]
    rfl

theorem uniform_session (lines : List (Option Ready)) : (session lines).Uniform := by
  induction lines with
  | nil => trivial
  | cons line lines ih =>
    cases line with
    | none => exact ⟨trivial, ih⟩
    | some line =>
      rw [session, inArena_runcmd]
      exact ⟨uniform_runcmd _, ih⟩

/-! ### Runs -/

/-- A run of `n` steps. -/
inductive Runs : ℕ → System → System → Prop
  | zero (s : System) : Runs 0 s s
  | succ {n : ℕ} {s₁ s₂ s₃ : System} (hrun : Runs n s₁ s₂) (hstep : SystemStep s₂ s₃) :
      Runs (n + 1) s₁ s₃

def System.activities (s : System) : List Activity := activitiesOf s.families

/-- Each of the first `total` calls has been made, is cancelled or is still to come; the programs
that have been started and not finished are running. -/
structure Balanced (total : ℕ) (s : System) : Prop where
  uniform : ∀ a ∈ s.activities, a.Uniform
  todo : (List.range total).Perm
    (s.log.filterMap Event.taken ++ s.activities.flatMap Activity.todo)
  running : (s.log.filterMap Event.started).Perm
    (s.log.filterMap Event.finished ++ s.activities.flatMap Activity.running)

def System.work (s : System) : ℕ := (s.activities.map Activity.work).sum

theorem SystemStep.moves {s s' : System} (h : SystemStep s s') :
    ∃ events, s'.log = s.log ++ events ∧ Moves s.activities s'.activities events := by
  cases h with
  | @run before after t t' events orphans log hstep =>
    refine ⟨events, rfl, (hstep.moves.frame (activitiesOf (before ++ after))).perm
      (activitiesOf_split before after t) ?_⟩
    show (activitiesOf (before ++ t' :: after ++ orphans)).Perm _
    rw [activitiesOf_append, List.append_assoc]
    refine ((activitiesOf_split before after t').append_right _).trans ?_
    rw [List.append_assoc]
    exact List.perm_append_comm.append_left _

theorem Balanced.step {total : ℕ} {s s' : System} (hs : Balanced total s)
    (h : SystemStep s s') : Balanced total s' ∧ s'.work < s.work := by
  obtain ⟨events, hlog, hmoves⟩ := h.moves
  have hacc := hmoves.accounted hs.uniform
  refine ⟨⟨hacc.uniform, ?_, ?_⟩, hacc.work⟩
  · rw [hlog, List.filterMap_append, List.append_assoc]
    exact hs.todo.trans (hacc.todo.append_left _)
  · rw [hlog, List.filterMap_append, List.filterMap_append, List.append_assoc]
    refine (hs.running.append_right _).trans ?_
    rw [List.append_assoc]
    exact (List.perm_append_comm.trans hacc.running).append_left _

theorem balanced_init (lines : List (Option Ready)) :
    Balanced (session lines).calls (System.init lines) where
  uniform := fun a ha => List.mem_singleton.mp ha ▸ uniform_session lines
  todo := by
    show (List.range (session lines).calls).Perm (List.range' 0 (session lines).calls ++ [])
    rw [List.append_nil, List.range_eq_range']
  running := .refl _

/-- **No call is lost or made twice, and every run comes to an end.** -/
theorem Runs.balanced {n : ℕ} {lines : List (Option Ready)} {s : System}
    (h : Runs n (System.init lines) s) :
    Balanced (session lines).calls s ∧ s.work + n ≤ (session lines).work := by
  generalize hinit : System.init lines = s₀ at h
  induction h with
  | zero s₀ =>
    subst hinit
    exact ⟨balanced_init lines, by simp [System.work, System.activities, System.init, activitiesOf,
      Family.activities, Activity.work]⟩
  | succ _ hstep ih =>
    obtain ⟨hbal, hwork⟩ := ih hinit
    obtain ⟨hbal', hlt⟩ := hbal.step hstep
    exact ⟨hbal', by omega⟩

end Jyyos.Sh
