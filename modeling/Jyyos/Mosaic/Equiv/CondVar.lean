import Jyyos.Decimal
import Jyyos.Mosaic.CondVar
import Jyyos.Mosaic.Equiv.Fork
import Jyyos.Mosaic.Equiv.OneHeap
import Mathlib.Data.List.Infix
import Mathlib.Tactic.Linarith

/-!
# The producers and consumers are safe

The code of a worker between two system calls has few possible effects on its context and on the
heap; they are the constructors of `Move`, and `resume_move` says that the code does nothing else.
The invariant `Pool` is about the workers and the heap: where each worker stands (`Stands`), that
one worker holds the lock when it is locked and none when it is not, that the count is `0` or `1`,
and that the wait list has the names of workers in their condition wait, each once.  A move of one
worker keeps it: the attributes `count` and `cond` are changed only by the worker that holds the
lock, and a worker that does not hold it relies on nothing.

`View` is the state as the workers see it.  Every step that the operating system offers is a step
of the view (`view_step`), so the invariant holds in every reachable state, and no choice ever
raises an exception.
-/

namespace Jyyos.Mosaic.CondVar

abbrev Context := Gen Value Func Frame

/-- A worker at a `sys_sched()`. -/
abbrev atSched (a : Args) (round : ℕ) (pc : Pc) : Context := .suspended (.worker a round pc) .sched

/-- A worker at its `sys_choose(heap.cond)`. -/
abbrev atChoose (a : Args) (round : ℕ) (cond : List Text) : Context :=
  .suspended (.worker a round .choosing) (.dev (.choose (cond.map .str)))

/-! ### What the code of a worker does -/

/-- The worker goes on to a `mutex_lock()`, in the given round and with the given `sys_sched()`. -/
inductive Enters (N : ℕ) (a : Args) (s : Shared) : Context → ℕ → Pc → Prop
  | start (hN : 0 < N) : Enters N a s (.start (.Tworker a)) 0 .lock
  | lock (round : ℕ) : Enters N a s (atSched a round .lock) round .lock
  | next {round : ℕ} (hN : round + 1 < N) :
    Enters N a s (atSched a round .unlocked) (round + 1) .lock
  | woken {round : ℕ} (hname : a.name ∉ s.cond) :
    Enters N a s (atSched a round .wait) round .relock
  | relock (round : ℕ) : Enters N a s (atSched a round .relock) round .relock

/-- Where a worker stops that has just locked the mutex. -/
inductive Acquires (a : Args) (round : ℕ) (s : Shared) : Context → Prop
  | enter (hguard : ¬a.Guard s.count) : Acquires a round s (atSched a round .enter)
  | signalled (hguard : a.Guard s.count) (hcond : s.cond = []) :
    Acquires a round s (atSched a round .signalled)
  | choosing (hguard : a.Guard s.count) : Acquires a round s (atChoose a round s.cond)

/-- What the code of a worker does from one system call to the next. -/
inductive Move (N : ℕ) (a : Args) (choice : Label) : Context → Shared → Context → Shared → Prop
  | spin {s : Shared} {g : Context} {round : ℕ} {pc : Pc} (h : Enters N a s g round pc) :
    Move N a choice g s (atSched a round pc) s
  | acquire {s : Shared} {g g' : Context} {round : ℕ} {pc : Pc} (h : Enters N a s g round pc)
    (hmutex : s.mutex = .unlocked) (h' : Acquires a round { s with mutex := .locked } g') :
    Move N a choice g s g' { s with mutex := .locked }
  | sleep (s : Shared) (round : ℕ) :
    Move N a choice (atSched a round .enter) s (atSched a round .wait)
      { s with mutex := .unlocked, cond := s.cond ++ [a.name] }
  | wait (s : Shared) (round : ℕ) :
    Move N a choice (atSched a round .wait) s (atSched a round .wait) s
  | wake {s : Shared} {t : Text} (round : ℕ) (ht : t ∈ s.cond)
    (hchoice : choice = chooseLabel (Value.str t)) :
    Move N a choice (atChoose a round s.cond) s (atSched a round .signalled)
      { s with cond := s.cond.erase t }
  | update (s : Shared) (round : ℕ) :
    Move N a choice (atSched a round .signalled) s (atSched a round .unlocked)
      { s with count := s.count + a.delta, mutex := .unlocked }
  | skip (s : Shared) (hN : N = 0) : Move N a choice (.start (.Tworker a)) s .finished s
  | leave {s : Shared} {round : ℕ} (hN : N ≤ round + 1) :
    Move N a choice (atSched a round .unlocked) s .finished s

section Code

variable {N : ℕ} {a : Args} {choice : Label} {s : Shared} {g : Context} {round : ℕ} {pc : Pc}

/-- The code ends with a move. -/
def Ends (N : ℕ) (a : Args) (choice : Label) (g : Context) (s : Shared) (r : Result) : Prop :=
  ∃ g' s', r.ends = some (g', some s') ∧ Move N a choice g s g' s'

theorem ends_whileNotGuard (a : Args) (round : ℕ) (s : Shared) :
    ∃ g, (whileNotGuard a round s).ends = some (g, some s) ∧ Acquires a round s g := by
  unfold whileNotGuard condSignal
  split_ifs with hguard hcond
  · exact ⟨_, rfl, .signalled hguard hcond⟩
  · exact ⟨_, rfl, .choosing hguard⟩
  · exact ⟨_, rfl, .enter hguard⟩

theorem ends_mutexLock (h : Enters N a s g round pc) :
    Ends N a choice g s (mutexLock a round pc s) := by
  unfold mutexLock
  cases hmutex : s.mutex with
  | locked => exact ⟨_, _, rfl, .spin h⟩
  | unlocked =>
    obtain ⟨g', hends, hacq⟩ := ends_whileNotGuard a round { s with mutex := .locked }
    exact ⟨g', _, hends, .acquire h hmutex hacq⟩

theorem ends_condWait (round : ℕ) :
    Ends N a choice (atSched a round .wait) s (condWait a round s) := by
  unfold condWait
  split_ifs with hname
  · exact ⟨_, _, rfl, .wait s round⟩
  · exact ends_mutexLock (.woken hname)

theorem ends_forRounds_zero :
    Ends N a choice (.start (.Tworker a)) s (forRounds N a 0 (some s)) := by
  unfold forRounds
  split_ifs with hN
  · exact ends_mutexLock (.start hN)
  · exact ⟨_, _, rfl, .skip s (Nat.eq_zero_of_not_pos hN)⟩

theorem ends_forRounds_succ (round : ℕ) :
    Ends N a choice (atSched a round .unlocked) s (forRounds N a (round + 1) (some s)) := by
  unfold forRounds
  split_ifs with hN
  · exact ends_mutexLock (.next hN)
  · exact ⟨_, _, rfl, .leave (Nat.le_of_not_lt hN)⟩

/-- **The code of a worker**, after a `sys_sched()`. -/
theorem ends_worker_sched (v : Value) (round : ℕ) (hpc : pc ≠ .choosing) :
    Ends N a choice (atSched a round pc) s (worker N a round v (some s) pc) := by
  cases pc with
  | lock => exact ends_mutexLock (.lock round)
  | enter =>
    -- its name has just been added, so it waits
    refine ⟨_, _, ?_, .sleep s round⟩
    show (condWait a round _).ends = _
    unfold condWait
    rw [if_pos (List.mem_append_right _ (List.mem_singleton_self _))]
    rfl
  | wait => exact ends_condWait round
  | relock => exact ends_mutexLock (.relock round)
  | choosing => exact absurd rfl hpc
  | signalled => exact ⟨_, _, rfl, .update s round⟩
  | unlocked => exact ends_forRounds_succ round

/-- The code after the `sys_choose`: the value is in the list. -/
theorem ends_worker_choosing {t : Text} (ht : t ∈ s.cond)
    (hchoice : choice = chooseLabel (Value.str t)) :
    Ends N a choice (atChoose a round s.cond) s
      (worker N a round (.str t) (some s) .choosing) := by
  refine ⟨_, _, ?_, .wake round ht hchoice⟩
  show (if t ∈ s.cond then _ else _ : Result).ends = _
  rw [if_pos ht]
  rfl

end Code

/-! ### The invariant -/

/-- Between acquiring the lock and releasing it. -/
def Pc.holds : Pc → Bool
  | .enter => true
  | .choosing => true
  | .signalled => true
  | _ => false

/-- The thread is a worker that holds the lock. -/
def holds : Context → Bool
  | .suspended (.worker _ _ pc) _ => pc.holds
  | _ => false

/-- Where a worker may stand.  A worker that holds the lock has tested the count, and at its
`sys_choose` it is offered the wait list as it is. -/
inductive Stands (N : ℕ) (s : Shared) (a : Args) : Context → Prop
  | start : Stands N s a (.start (.Tworker a))
  | finished : Stands N s a .finished
  | free {round : ℕ} {pc : Pc} (hround : round < N) (hpc : pc.holds = false) :
    Stands N s a (atSched a round pc)
  | enter {round : ℕ} (hround : round < N) (hguard : ¬a.Guard s.count) :
    Stands N s a (atSched a round .enter)
  | choosing {round : ℕ} (hround : round < N) (hguard : a.Guard s.count) :
    Stands N s a (atChoose a round s.cond)
  | signalled {round : ℕ} (hround : round < N) (hguard : a.Guard s.count) :
    Stands N s a (atSched a round .signalled)

/-- The invariant of the workers and of the heap. -/
structure Pool (N : ℕ) (ws : List (Args × Context)) (s : Shared) : Prop where
  stands : ∀ p ∈ ws, Stands N s p.1 p.2
  holders : (ws.countP fun p => holds p.2) = if s.mutex = .locked then 1 else 0
  count_mem : 0 ≤ s.count ∧ s.count ≤ 1
  nodup : s.cond.Nodup
  waiting : ∀ t ∈ s.cond, ∃ a round, a.name = t ∧ (a, atSched a round .wait) ∈ ws

section Moves

variable {N : ℕ} {a : Args} {choice : Label} {s s' : Shared} {g g' : Context} {round : ℕ} {pc : Pc}

/-- A worker that does not hold the lock relies on nothing. -/
theorem Stands.frame (h : Stands N s a g)
    (hs : holds g = true → s'.count = s.count ∧ s'.cond = s.cond) : Stands N s' a g := by
  cases h with
  | start => exact .start
  | finished => exact .finished
  | free hround hpc => exact .free hround hpc
  | enter hround hguard =>
    rw [← (hs rfl).1] at hguard
    exact .enter hround hguard
  | choosing hround hguard =>
    rw [← (hs rfl).1] at hguard
    rw [← (hs rfl).2]
    exact .choosing hround hguard
  | signalled hround hguard =>
    rw [← (hs rfl).1] at hguard
    exact .signalled hround hguard

theorem Stands.round_lt {a' : Args} {call : Syscall Value Func}
    (h : Stands N s a (.suspended (.worker a' round pc) call)) : round < N := by
  cases h <;> assumption

theorem Stands.sched_cases {frame : Frame} (h : Stands N s a (.suspended frame .sched)) :
    ∃ round pc, frame = .worker a round pc ∧ pc ≠ .choosing := by
  cases h with
  | free hround hpc =>
    refine ⟨_, _, rfl, ?_⟩
    rintro rfl
    cases hpc
  | enter => exact ⟨_, _, rfl, fun h => nomatch h⟩
  | signalled => exact ⟨_, _, rfl, fun h => nomatch h⟩

theorem Enters.round_lt (h : Enters N a s g round pc) (hst : Stands N s a g) : round < N := by
  cases h with
  | start hN => exact hN
  | next hN => exact hN
  | lock => exact hst.round_lt
  | woken => exact hst.round_lt
  | relock => exact hst.round_lt

theorem Enters.not_holds (h : Enters N a s g round pc) : holds g = false := by
  cases h <;> rfl

theorem Enters.pc_cases (h : Enters N a s g round pc) : pc = .lock ∨ pc = .relock := by
  cases h <;> simp

theorem Enters.pc_holds (h : Enters N a s g round pc) : pc.holds = false := by
  rcases h.pc_cases with rfl | rfl <;> rfl

theorem Acquires.stands (h : Acquires a round s g) (hround : round < N) : Stands N s a g := by
  cases h with
  | enter hguard => exact .enter hround hguard
  | signalled hguard => exact .signalled hround hguard
  | choosing hguard => exact .choosing hround hguard

theorem Acquires.holds_eq (h : Acquires a round s g) : holds g = true := by
  cases h <;> rfl

theorem Move.stands (h : Move N a choice g s g' s') (hst : Stands N s a g) :
    Stands N s' a g' := by
  cases h with
  | spin henter => exact .free (henter.round_lt hst) henter.pc_holds
  | acquire henter hmutex hacq => exact hacq.stands (henter.round_lt hst)
  | sleep => exact .free hst.round_lt rfl
  | wait => exact hst
  | wake round ht =>
    have hguard : a.Guard s.count := by
      cases hst
      assumption
    exact .signalled hst.round_lt hguard
  | update => exact .free hst.round_lt rfl
  | skip => exact .finished
  | leave => exact .finished

/-- Only the worker that holds the lock changes the count and the wait list. -/
theorem Move.frame (h : Move N a choice g s g' s') (hg : holds g = false) :
    s'.count = s.count ∧ s'.cond = s.cond := by
  cases h with
  | sleep => cases hg
  | wake => cases hg
  | update => cases hg
  | _ => exact ⟨rfl, rfl⟩

/-- The mutex follows the worker that moves. -/
theorem Move.mutex (h : Move N a choice g s g' s') :
    (holds g' = holds g ∧ s'.mutex = s.mutex) ∨
      (holds g = false ∧ holds g' = true ∧ s.mutex = .unlocked ∧ s'.mutex = .locked) ∨
      (holds g = true ∧ holds g' = false ∧ s'.mutex = .unlocked) := by
  cases h with
  | spin henter =>
    refine Or.inl ⟨?_, rfl⟩
    rw [henter.not_holds]
    exact henter.pc_holds
  | acquire henter hmutex hacq =>
    exact Or.inr (Or.inl ⟨henter.not_holds, hacq.holds_eq, hmutex, rfl⟩)
  | sleep => exact Or.inr (Or.inr ⟨rfl, rfl, rfl⟩)
  | update => exact Or.inr (Or.inr ⟨rfl, rfl, rfl⟩)
  | _ => exact Or.inl ⟨rfl, rfl⟩

/-- The update that a thread has just made, if it stands behind one. -/
def updateOf : Context → Option ℤ
  | .suspended (.worker a _ .unlocked) _ => some a.delta
  | _ => none

theorem Move.count (h : Move N a choice g s g' s') :
    s'.count = s.count + (updateOf g').getD 0 := by
  cases h with
  | update => rfl
  | spin henter =>
    rcases henter.pc_cases with rfl | rfl <;> exact (add_zero _).symm
  | acquire henter hmutex hacq =>
    cases hacq <;> exact (add_zero _).symm
  | _ => exact (add_zero _).symm

/-- An update is made after the count has been tested. -/
theorem Move.count_mem (h : Move N a choice g s g' s') (hst : Stands N s a g)
    (hcount : 0 ≤ s.count ∧ s.count ≤ 1) : 0 ≤ s'.count ∧ s'.count ≤ 1 := by
  cases h with
  | update =>
    cases hst with
    | free hround hpc => cases hpc
    | signalled hround hguard => exact hguard
  | _ => exact hcount

/-- What a move does to the wait list. -/
theorem Move.cond_cases (h : Move N a choice g s g' s') :
    s'.cond = s.cond ∨
      (∃ round, g = atSched a round .enter ∧ g' = atSched a round .wait ∧
        s'.cond = s.cond ++ [a.name]) ∨
      ∃ t ∈ s.cond, holds g = true ∧ s'.cond = s.cond.erase t := by
  cases h with
  | sleep s round => exact Or.inr (Or.inl ⟨round, rfl, rfl, rfl⟩)
  | wake round ht => exact Or.inr (Or.inr ⟨_, ht, rfl, rfl⟩)
  | _ => exact Or.inl rfl

/-- A worker stays in its condition wait as long as its name is in the list. -/
theorem Move.waits (h : Move N a choice (atSched a round .wait) s g' s')
    (hname : a.name ∈ s.cond) : g' = atSched a round .wait := by
  cases h with
  | spin henter =>
    cases henter with
    | woken hname' => exact absurd hname hname'
  | acquire henter =>
    cases henter with
    | woken hname' => exact absurd hname hname'
  | wait => rfl

end Moves

/-! ### One move keeps the invariant -/

section Pools

variable {N : ℕ} {a : Args} {choice : Label} {ws : List (Args × Context)} {s s' : Shared}
  {g g' : Context} {i : ℕ}

theorem getElem?_set_cases {α : Type} {l : List α} {i j : ℕ} {x y : α}
    (h : (l.set i x)[j]? = some y) : (j = i ∧ y = x) ∨ (j ≠ i ∧ l[j]? = some y) := by
  by_cases hji : j = i
  · subst hji
    have hlt : j < l.length := by simpa using (List.getElem?_eq_some_iff.mp h).1
    rw [List.getElem?_set_self hlt] at h
    exact Or.inl ⟨rfl, (Option.some.inj h).symm⟩
  · rw [List.getElem?_set_ne (Ne.symm hji)] at h
    exact Or.inr ⟨hji, h⟩

/-- If a worker holds the lock, then no other does. -/
theorem Pool.not_holds (h : Pool N ws s) (hi : ws[i]? = some (a, g)) (hg : holds g = true)
    {j : ℕ} {p : Args × Context} (hji : j ≠ i) (hj : ws[j]? = some p) : holds p.2 = false := by
  obtain ⟨hlt, hget⟩ := List.getElem?_eq_some_iff.mp hi
  -- without the worker there is no holder left
  have hzero : ((ws.set i (a, .finished)).countP fun p => holds p.2) = 0 := by
    have hle : (ws.countP fun p => holds p.2) ≤ 1 := by
      rw [h.holders]
      split_ifs <;> omega
    rw [List.countP_set hlt, hget, if_pos hg]
    show _ - 1 + 0 = 0
    omega
  have hmem : p ∈ ws.set i (a, .finished) := by
    refine List.mem_of_getElem? (i := j) ?_
    rw [List.getElem?_set_ne (Ne.symm hji), hj]
  simpa using List.countP_eq_zero.mp hzero p hmem

theorem index_of_name (hnames : (ws.map fun p => p.1.name).Nodup) {p q : Args × Context} {j : ℕ}
    (hi : ws[i]? = some p) (hj : ws[j]? = some q) (hname : p.1.name = q.1.name) : i = j := by
  have hlt : i < (ws.map fun p => p.1.name).length := by
    rw [List.length_map]
    exact (List.getElem?_eq_some_iff.mp hi).1
  apply (List.getElem?_inj hlt hnames).mp
  rw [List.getElem?_map, List.getElem?_map, hi, hj]
  exact congrArg some hname

/-- A name in the wait list is the name of one worker, and this worker waits. -/
theorem Pool.waits (h : Pool N ws s) (hnames : (ws.map fun p => p.1.name).Nodup)
    (hi : ws[i]? = some (a, g)) (hmem : a.name ∈ s.cond) : ∃ round, g = atSched a round .wait := by
  obtain ⟨a', round, hname, hws⟩ := h.waiting a.name hmem
  obtain ⟨j, hj⟩ := List.mem_iff_getElem?.mp hws
  obtain rfl : i = j := index_of_name hnames hi hj hname.symm
  obtain ⟨rfl, rfl⟩ := Prod.mk.inj (Option.some.inj (hi.symm.trans hj))
  exact ⟨round, rfl⟩

/-- The others stand where they stood: the count and the wait list are changed by the worker that
holds the lock. -/
theorem Pool.stands_move (h : Pool N ws s) (hi : ws[i]? = some (a, g))
    (hm : Move N a choice g s g' s') : ∀ p ∈ ws.set i (a, g'), Stands N s' p.1 p.2 := by
  intro p hp
  obtain ⟨j, hj⟩ := List.mem_iff_getElem?.mp hp
  rcases getElem?_set_cases hj with ⟨-, rfl⟩ | ⟨hji, hj⟩
  · exact hm.stands (h.stands (a, g) (List.mem_of_getElem? hi))
  · apply (h.stands p (List.mem_of_getElem? hj)).frame
    intro hp
    apply hm.frame
    by_contra hg
    rw [Bool.not_eq_false] at hg
    rw [h.not_holds hi hg hji hj] at hp
    cases hp

/-- The number of holders follows the mutex. -/
theorem Pool.holders_move (h : Pool N ws s) (hi : ws[i]? = some (a, g))
    (hm : Move N a choice g s g' s') :
    ((ws.set i (a, g')).countP fun p => holds p.2) = if s'.mutex = .locked then 1 else 0 := by
  obtain ⟨hlt, hget⟩ := List.getElem?_eq_some_iff.mp hi
  have hcount := h.holders
  have hpos : holds g = true → 0 < ws.countP fun p => holds p.2 := fun hg =>
    List.countP_pos_iff.mpr ⟨(a, g), List.mem_of_getElem? hi, hg⟩
  rw [List.countP_set hlt, hget]
  rcases hm.mutex with ⟨hg, hmutex⟩ | ⟨hg, hg', hmutex, hmutex'⟩ | ⟨hg, hg', hmutex⟩
  · simp only [hg, hmutex]
    rw [← hcount]
    split_ifs with hgg
    · have := hpos hgg
      omega
    · rfl
  · simp [hg, hg', hmutex', hcount, hmutex]
  · have := hpos hg
    simp only [hg, hg', hmutex]
    split_ifs at hcount <;> simp <;> omega

/-- A worker that goes to sleep is not in the wait list yet. -/
theorem Pool.nodup_move (h : Pool N ws s) (hnames : (ws.map fun p => p.1.name).Nodup)
    (hi : ws[i]? = some (a, g)) (hm : Move N a choice g s g' s') : s'.cond.Nodup := by
  rcases hm.cond_cases with hcond | ⟨round, rfl, -, hcond⟩ | ⟨t, -, -, hcond⟩
  · rw [hcond]
    exact h.nodup
  · rw [hcond, List.nodup_append_comm, List.singleton_append, List.nodup_cons]
    refine ⟨fun hmem => ?_, h.nodup⟩
    obtain ⟨round', heq⟩ := h.waits hnames hi hmem
    cases heq
  · rw [hcond]
    exact h.nodup.erase t

/-- The names that are left are those of workers that wait, and they stay. -/
theorem Pool.waiting_move (h : Pool N ws s) (hi : ws[i]? = some (a, g))
    (hm : Move N a choice g s g' s') {t : Text} (ht : t ∈ s'.cond) :
    ∃ b round, b.name = t ∧ (b, atSched b round .wait) ∈ ws.set i (a, g') := by
  have hself : (a, g') ∈ ws.set i (a, g') :=
    List.mem_set (List.getElem?_eq_some_iff.mp hi).1 (a, g')
  have hold : t ∈ s.cond ∨ (t = a.name ∧ ∃ round, g' = atSched a round .wait) := by
    rcases hm.cond_cases with hcond | ⟨round, -, hg', hcond⟩ | ⟨t', -, -, hcond⟩
    · rw [hcond] at ht
      exact Or.inl ht
    · rw [hcond, List.mem_append, List.mem_singleton] at ht
      exact ht.imp id fun htn => ⟨htn, round, hg'⟩
    · rw [hcond] at ht
      exact Or.inl (List.mem_of_mem_erase ht)
  rcases hold with ht | ⟨rfl, round, rfl⟩
  · obtain ⟨b, round, hname, hmem⟩ := h.waiting t ht
    obtain ⟨j, hj⟩ := List.mem_iff_getElem?.mp hmem
    refine ⟨b, round, hname, ?_⟩
    by_cases hji : j = i
    · subst hji
      obtain ⟨rfl, rfl⟩ := Prod.mk.inj (Option.some.inj (hi.symm.trans hj))
      rw [← hname] at ht
      rw [← hm.waits ht]
      exact hself
    · refine List.mem_of_getElem? (i := j) ?_
      rw [List.getElem?_set_ne (Ne.symm hji), hj]
  · exact ⟨a, round, rfl, hself⟩

/-- **One move** keeps the invariant. -/
theorem Pool.move (h : Pool N ws s) (hnames : (ws.map fun p => p.1.name).Nodup)
    (hi : ws[i]? = some (a, g)) (hm : Move N a choice g s g' s') :
    Pool N (ws.set i (a, g')) s' where
  stands := h.stands_move hi hm
  holders := h.holders_move hi hm
  count_mem := hm.count_mem (h.stands (a, g) (List.mem_of_getElem? hi)) h.count_mem
  nodup := h.nodup_move hnames hi hm
  waiting _ ht := h.waiting_move hi hm ht

end Pools

/-! ### Views -/

/-- The context of `main`, with the workers that are still to be spawned. -/
def mainAt : List Args → Context
  | [] => .finished
  | a :: rest => .suspended (.spawning rest) (spawnCall a)

/-- The state as the workers see it. -/
inductive View where
  /-- `main` has not started. -/
  | start
  | running (rest : List Args) (ws : List (Args × Context)) (current : ℕ) (s : Shared)

namespace View

def contexts : View → List Context
  | start => [.start .main]
  | running rest ws _ _ => mainAt rest :: ws.map Prod.snd

def current : View → ℕ
  | start => 0
  | running _ _ current _ => current

def heap : View → Option Shared
  | start => none
  | running _ _ _ s => some s

/-- The steps: `main` spawns the workers, and then a worker moves.  A worker at its `sys_choose` is
the current one. -/
inductive Step (T_p T_c N : ℕ) (choice : Label) : View → View → Prop
  | main : Step T_p T_c N choice start (running (workers T_p T_c) [] 0 .init)
  | spawn (a : Args) (rest : List Args) (ws : List (Args × Context)) (current : ℕ) (s : Shared) :
    Step T_p T_c N choice (running (a :: rest) ws current s)
      (running rest (ws ++ [(a, .start (.Tworker a))]) 0 s)
  | move {ws : List (Args × Context)} {current i : ℕ} {a : Args} {g g' : Context} {s s' : Shared}
    (hi : ws[i]? = some (a, g))
    (hcur : ∀ round, g = atChoose a round s.cond → current = i + 1)
    (hm : Move N a choice g s g' s') :
    Step T_p T_c N choice (running [] ws current s) (running [] (ws.set i (a, g')) (i + 1) s')

/-- The invariant: nothing has happened before the last worker is spawned. -/
inductive Good (T_p T_c N : ℕ) : View → Prop
  | start : Good T_p T_c N start
  | running {rest : List Args} {ws : List (Args × Context)} {current : ℕ} {s : Shared}
    (hws : ws.map Prod.fst ++ rest = workers T_p T_c) (hpool : Pool N ws s)
    (hrest : rest ≠ [] → current = 0 ∧ s = .init) : Good T_p T_c N (running rest ws current s)

end View

/-- The workers have distinct names. -/
theorem nodup_workers (T_p T_c : ℕ) : ((workers T_p T_c).map Args.name).Nodup := by
  unfold workers
  rw [List.map_append, List.map_map, List.map_map]
  refine List.Nodup.append ?_ ?_ ?_
  · refine List.Nodup.map (fun m n h => ?_) List.nodup_range
    exact toDigits_injective (List.cons.inj (List.cons.inj h).2).2
  · refine List.Nodup.map (fun m n h => ?_) List.nodup_range
    exact toDigits_injective (List.cons.inj (List.cons.inj h).2).2
  · intro t hp hc
    obtain ⟨m, -, rfl⟩ := List.mem_map.mp hp
    obtain ⟨n, -, h⟩ := List.mem_map.mp hc
    -- the second characters differ
    cases (List.cons.inj (List.cons.inj h).2).1

theorem pool_init (N : ℕ) : Pool N [] .init := by
  refine ⟨fun p hp => ?_, rfl, ⟨le_refl _, zero_le_one⟩, List.nodup_nil, fun t ht => ?_⟩
  · cases hp
  · cases ht

/-- A new worker changes nothing. -/
theorem Pool.spawn {N : ℕ} {ws : List (Args × Context)} {s : Shared} (h : Pool N ws s) (a : Args) :
    Pool N (ws ++ [(a, .start (.Tworker a))]) s := by
  refine ⟨fun p hp => ?_, ?_, h.count_mem, h.nodup, fun t ht => ?_⟩
  · rcases List.mem_append.mp hp with hp | hp
    · exact h.stands p hp
    · rw [List.mem_singleton.mp hp]
      exact .start
  · rw [List.countP_append, h.holders]
    rfl
  · obtain ⟨a', round, hname, hmem⟩ := h.waiting t ht
    exact ⟨a', round, hname, List.mem_append_left _ hmem⟩

theorem map_fst_set {ws : List (Args × Context)} {i : ℕ} {a : Args} {g : Context} (g' : Context)
    (hi : ws[i]? = some (a, g)) : (ws.set i (a, g')).map Prod.fst = ws.map Prod.fst := by
  obtain ⟨hlt, hget⟩ := List.getElem?_eq_some_iff.mp hi
  have hlt' : i < (ws.map Prod.fst).length := by
    rw [List.length_map]
    exact hlt
  have ha : (ws.map Prod.fst)[i] = a := by rw [List.getElem_map, hget]
  have hself := List.set_getElem_self hlt'
  rw [ha] at hself
  rw [List.map_set]
  exact hself

namespace View

variable {T_p T_c N : ℕ} {choice : Label} {v v' : View}

theorem names_nodup {ws : List (Args × Context)} {rest : List Args}
    (hws : ws.map Prod.fst ++ rest = workers T_p T_c) : (ws.map fun p => p.1.name).Nodup := by
  have hnodup := nodup_workers T_p T_c
  rw [← hws, List.map_append, List.map_map] at hnodup
  exact hnodup.of_append_left

/-- **One step** keeps the invariant. -/
theorem Good.step (h : v.Good T_p T_c N) (hstep : v.Step T_p T_c N choice v') :
    v'.Good T_p T_c N := by
  cases hstep with
  | main => exact .running rfl (pool_init N) fun _ => ⟨rfl, rfl⟩
  | spawn a rest ws current s =>
    cases h with
    | running hws hpool hrest =>
      refine .running ?_ (hpool.spawn a) fun _ => ⟨rfl, (hrest (List.cons_ne_nil a rest)).2⟩
      rw [List.map_append, List.append_assoc]
      exact hws
  | move hi hcur hm =>
    cases h with
    | running hws hpool hrest =>
      refine .running ?_ (hpool.move (names_nodup hws) hi hm) fun hne => absurd rfl hne
      rw [map_fst_set _ hi]
      exact hws

theorem getElem?_contexts_succ (rest : List Args) (ws : List (Args × Context)) (current : ℕ)
    (s : Shared) (i : ℕ) :
    (running rest ws current s).contexts[i + 1]? = (ws[i]?).map Prod.snd := List.getElem?_map

/-- Where the threads may stand, `main` among them. -/
theorem getElem?_contexts_cases {rest : List Args} {ws : List (Args × Context)} {current tid : ℕ}
    {s : Shared} {g : Context} (hpool : Pool N ws s)
    (hg : (running rest ws current s).contexts[tid]? = some g) :
    (tid = 0 ∧ g = mainAt rest) ∨
      ∃ i a, tid = i + 1 ∧ ws[i]? = some (a, g) ∧ Stands N s a g := by
  cases tid with
  | zero => exact Or.inl ⟨rfl, (Option.some.inj hg).symm⟩
  | succ i =>
    rw [getElem?_contexts_succ] at hg
    obtain ⟨⟨a, g'⟩, hi, rfl⟩ := Option.map_eq_some_iff.mp hg
    exact Or.inr ⟨i, a, rfl, hi, hpool.stands _ (List.mem_of_getElem? hi)⟩

/-- All system calls of the program are covered. -/
theorem Good.plain (h : v.Good T_p T_c N) {frame : Frame} {call : Syscall Value Func}
    (hg : v.contexts[v.current]? = some (.suspended frame call)) :
    Plain (condVar T_p T_c N) call := by
  cases h with
  | start => cases hg
  | running hws hpool hrest =>
    rename_i rest ws current s
    rcases getElem?_contexts_cases hpool hg with ⟨-, hmain⟩ | ⟨i, a, -, -, hst⟩
    · cases rest with
      | nil => cases hmain
      | cons a rest =>
        cases hmain
        exact .spawn (.Tworker a) rfl
    · cases hst with
      | free => exact .sched
      | enter => exact .sched
      | choosing => exact .choose _
      | signalled => exact .sched

/-- The code of the selected thread makes a step of the view. -/
def Runs (T_p T_c N : ℕ) (choice : Label) (v : View) (contexts : List Context) (current : ℕ)
    (value : Value) : Prop :=
  ∃ g frame g' h', contexts[current]? = some g ∧ g.frame? = some frame ∧
    ((condVar T_p T_c N).resume frame value v.heap).ends = some (g', h') ∧
    ∃ v', v.Step T_p T_c N choice v' ∧ v'.contexts = contexts.set current g' ∧
      v'.current = current ∧ v'.heap = h'

theorem runs_worker {ws : List (Args × Context)} {current i : ℕ} {a : Args} {g : Context}
    {s : Shared} {frame : Frame} {value : Value} (hi : ws[i]? = some (a, g))
    (hframe : g.frame? = some frame)
    (hcur : ∀ round, g = atChoose a round s.cond → current = i + 1)
    (hends : Ends N a choice g s ((condVar T_p T_c N).resume frame value (some s))) :
    Runs T_p T_c N choice (running [] ws current s) (running [] ws current s).contexts (i + 1)
      value := by
  obtain ⟨g', s', hends, hm⟩ := hends
  refine ⟨g, frame, g', some s', ?_, hframe, hends, _, .move hi hcur hm, ?_, rfl, rfl⟩
  · rw [getElem?_contexts_succ, hi]
    rfl
  · show _ :: (ws.set i (a, g')).map Prod.snd = (_ :: ws.map Prod.snd).set (i + 1) g'
    rw [List.map_set, List.set_cons_succ]

theorem ends_spawnNext (h : Option Shared) (rest : List Args) :
    (spawnNext h rest).ends = some (mainAt rest, h) := by
  cases rest <;> rfl

/-- While `main` is at a `sys_spawn`, it does not yield. -/
theorem rest_eq_nil {rest : List Args} {ws : List (Args × Context)} {current : ℕ} {s : Shared}
    (hrest : rest ≠ [] → current = 0 ∧ s = .init)
    (hcur : Yields (running rest ws current s).contexts current) : rest = [] := by
  cases rest with
  | nil => rfl
  | cons a rest =>
    obtain ⟨rfl, -⟩ := hrest (List.cons_ne_nil a rest)
    cases hcur (.spawning rest) (spawnCall a) rfl

/-- The first step. -/
theorem runs_start {contexts' : List Context} {current' : ℕ} {value : Value}
    (hsel : Selects (condVar T_p T_c N) start.contexts start.current choice contexts' current'
      value) : Runs T_p T_c N choice start contexts' current' value := by
  cases hsel with
  | spawn hg => cases hg
  | sched hcur hg => cases current' <;> cases hg
  | choose hg => cases hg
  | start hcur hg =>
    cases current' with
    | succ tid => cases hg
    | zero =>
      cases hg
      exact ⟨_, _, _, _, rfl, rfl, ends_spawnNext .., _, .main, rfl, rfl, rfl⟩

/-- The callback of a `sys_spawn` adds the worker, and `main` goes on. -/
theorem runs_spawn (a : Args) (rest : List Args) (ws : List (Args × Context)) (s : Shared) :
    Runs T_p T_c N choice (running (a :: rest) ws 0 s)
      ((running (a :: rest) ws 0 s).contexts ++ [.start (.Tworker a)]) 0 PyVal.none := by
  refine ⟨_, _, _, _, rfl, rfl, ends_spawnNext _ rest, _, .spawn a rest ws 0 s, ?_, rfl, rfl⟩
  show _ :: (ws ++ [_]).map Prod.snd = _
  rw [List.map_append]
  rfl

/-- **Every selection** makes a step of the view. -/
theorem Good.runs (h : v.Good T_p T_c N) {contexts' : List Context} {current' : ℕ} {value : Value}
    (hsel : Selects (condVar T_p T_c N) v.contexts v.current choice contexts' current' value) :
    Runs T_p T_c N choice v contexts' current' value := by
  cases h with
  | start => exact runs_start hsel
  | running hws hpool hrest =>
    rename_i rest ws current s
    cases hsel with
    | spawn hg hcall =>
      rcases getElem?_contexts_cases hpool hg with ⟨htid, hmain⟩ | ⟨i, a, -, -, hst⟩
      · replace htid : current = 0 := htid
        subst htid
        cases rest with
        | nil => cases hmain
        | cons a rest =>
          cases hmain
          cases hcall
          exact runs_spawn a rest ws s
      · cases hst
    | start hcur hg =>
      obtain rfl := rest_eq_nil hrest hcur
      rcases getElem?_contexts_cases hpool hg with ⟨-, hmain⟩ | ⟨i, a, rfl, hi, hst⟩
      · cases hmain
      · cases hst
        exact runs_worker hi rfl (fun round heq => nomatch heq) ends_forRounds_zero
    | sched hcur hg =>
      obtain rfl := rest_eq_nil hrest hcur
      rcases getElem?_contexts_cases hpool hg with ⟨-, hmain⟩ | ⟨i, a, rfl, hi, hst⟩
      · cases hmain
      · obtain ⟨round, pc, rfl, hpc⟩ := hst.sched_cases
        have hends : Ends N a choice (atSched a round pc) s
          (worker N a round PyVal.none (some s) pc) := ends_worker_sched _ round hpc
        exact runs_worker hi rfl (fun round heq => nomatch heq) hends
    | choose hg hv hchoice =>
      -- the worker at its `sys_choose` is the current thread
      rcases getElem?_contexts_cases hpool hg with ⟨-, hmain⟩ | ⟨i, a, hcur, hi, hst⟩
      · cases rest <;> cases hmain
      · replace hcur : current = i + 1 := hcur
        subst hcur
        obtain rfl : rest = [] := by
          by_contra hne
          cases (hrest hne).1
        cases hst with
        | choosing =>
          obtain ⟨t, ht, rfl⟩ := List.mem_map.mp hv
          exact runs_worker hi rfl (fun _ _ => rfl) (ends_worker_choosing ht hchoice)

end View

/-! ### Runs -/

section Runs

variable {T_p T_c N : ℕ}

/-- The reference is in the state that the view shows. -/
abbrev Shows (ref : Reference Value Func Frame (Option Shared)) (v : View) : Prop :=
  OneHeap ref v.contexts v.current v.heap

variable {ref : Reference Value Func Frame (Option Shared)} {v : View} {choice : Label}

/-- **Every offered choice** succeeds and is a step of the view. -/
theorem view_step (hgood : v.Good T_p T_c N) (hshows : Shows ref v)
    (hinv : ref.Inv (condVar T_p T_c N)) {a : Action Value Func Unit}
    (ha : ref.choices.get? choice = some a) :
    ∃ ref' v', ref.step (condVar T_p T_c N) choice = some ref' ∧
      v.Step T_p T_c N choice v' ∧ Shows ref' v' := by
  obtain ⟨ref', contexts', current', h', hstep, hone, v', hv, rfl, rfl, rfl⟩ :=
    hshows.step hinv (fun frame call => hgood.plain) ha
      (P := fun contexts' current' h' => ∃ v', v.Step T_p T_c N choice v' ∧
        v'.contexts = contexts' ∧ v'.current = current' ∧ v'.heap = h')
      fun contexts' current' value hsel => hgood.runs hsel
  exact ⟨ref', v', hstep, hv, hone⟩

/-- What holds at the start and is kept by the steps of the view holds after every run. -/
theorem run_induction {P : List Label → View → Prop} (hnew : P [] .start)
    (hstep : ∀ trace choice ref ref' v v',
      Reference.run (condVar T_p T_c N) trace = some ref → Shows ref v → v.Good T_p T_c N →
      Reference.run (condVar T_p T_c N) (trace ++ [choice]) = some ref' → Shows ref' v' →
      v.Step T_p T_c N choice v' → P trace v → P (trace ++ [choice]) v') (trace : List Label) :
    ∀ {ref}, Reference.run (condVar T_p T_c N) trace = some ref →
      ∃ v, v.Good T_p T_c N ∧ Shows ref v ∧ P trace v := by
  induction trace using List.reverseRecOn with
  | nil =>
    intro ref hrun
    obtain rfl := Option.some.inj hrun
    refine ⟨.start, .start, ⟨rfl, rfl, rfl, fun th hth => ?_, rfl⟩, hnew⟩
    rw [List.mem_singleton.mp hth]
  | append_singleton trace choice ih =>
    intro ref' hrun'
    have hconcat := hrun'
    rw [Reference.run_concat] at hconcat
    obtain ⟨ref, hrun, hrefstep⟩ := Option.bind_eq_some_iff.mp hconcat
    obtain ⟨v, hgood, hshows, hP⟩ := ih hrun
    -- a choice that succeeds is one that is offered
    have hinv := Reference.inv_run _ trace hrun
    obtain ⟨r, hadv, -⟩ := Option.bind_eq_some_iff.mp hrefstep
    obtain ⟨r₁, hchoose, -⟩ := Option.bind_eq_some_iff.mp hadv
    obtain ⟨a, g, ha, -⟩ := hinv.choose_cases _ hchoose
    obtain ⟨ref'', v', hstep', hv, hshows'⟩ := view_step hgood hshows hinv ha
    obtain rfl := Option.some.inj (hstep'.symm.trans hrefstep)
    exact ⟨v', hgood.step hv, hshows', hstep trace choice ref _ v v' hrun hshows hgood hrun' hshows'
      hv hP⟩

end Runs

end Jyyos.Mosaic.CondVar
