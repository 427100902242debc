import Jyyos.Mosaic.Equiv.CondVarSafe
import Mathlib.Algebra.Order.BigOperators.Group.List

/-!
# Wasted wake-ups of `cond-var.py`

Producers and consumers share one wait list, and `cond_signal()` wakes any worker in it.  A consumer
that wakes another consumer wastes the signal: the count is `0` after it, so the other one goes back
to the wait list, and a producer that waits there is not woken.  So the program can get stuck, with
all the workers that are left in the wait list (`not_neverStuck`).

It does not get stuck in a run where every signal goes to a worker of the other kind as long as
there is one in the wait list (`run_not_stuck`).  The invariant is `Alert`: if a worker waits whose
turn it is by the count, then some worker of its kind is not in the wait list and has updates left;
and so it is for the other kind once a signal has been given, since the count then changes to their
turn.  In a stuck state nobody is outside the wait list, so all workers of the kind whose turn it is
have done their rounds.  But the kinds have equally many rounds to do, and the count is their
difference.
-/

namespace Jyyos.Mosaic.CondVar

/-! ### The statements -/

/-- The arguments of a worker that has not finished. -/
def unfinished : Context → Option Args
  | .start (.Tworker a) => some a
  | .suspended (.worker a _ _) _ => some a
  | _ => none

/-- There are unfinished workers, and all of them are in the wait list. -/
def Stuck (contexts : List Context) (s : Shared) : Prop :=
  (∃ g ∈ contexts, (unfinished g).isSome = true) ∧
    ∀ g ∈ contexts, ∀ a ∈ unfinished g, a.name ∈ s.cond

instance (contexts : List Context) (s : Shared) : Decidable (Stuck contexts s) :=
  inferInstanceAs (Decidable (_ ∧ _))

/-- No run of the program with `T` producers, `T` consumers and `N` rounds gets stuck. -/
def NeverStuck (T N : ℕ) : Prop :=
  ∀ trace k w os w',
    OperatingSystem.run (condVar T T N) (trace.length + k) [] trace w = (.ok os, w') →
    ∀ th ∈ os.threads, ∀ s, w'.heaps[th.heap]? = some (some s) → ¬Stuck os.contexts s

/-- The name is in the wait list, and it is that of a worker of the given kind. -/
def Waits (contexts : List Context) (s : Shared) (delta : ℤ) (t : Text) : Prop :=
  t ∈ s.cond ∧ ∃ a round, a.name = t ∧ a.delta = delta ∧ atSched a round .wait ∈ contexts

/-- If the current thread is a worker at its `sys_choose`, then the choice takes a worker of the
other kind, unless there is none in the wait list. -/
def WakesOther (contexts : List Context) (current : ℕ) (s : Shared) (choice : Label) : Prop :=
  ∀ a round call, contexts[current]? = some (.suspended (.worker a round .choosing) call) →
    (∃ t, Waits contexts s (-a.delta) t) →
    ∃ t, Waits contexts s (-a.delta) t ∧ choice = chooseLabel (Value.str t)

/-- All choices of a run are such. -/
def FairRun (T_p T_c N k : ℕ) (w : World (Option Shared)) (trace : List Label) : Prop :=
  ∀ p choice, p ++ [choice] <+: trace → ∀ os w',
    OperatingSystem.run (condVar T_p T_c N) (p.length + k) [] p w = (.ok os, w') →
    ∀ th ∈ os.threads, ∀ s, w'.heaps[th.heap]? = some (some s) →
      WakesOther os.contexts os.current s choice

/-! ### The updates that a worker has made -/

/-- The number of updates that a worker has made. -/
def done (N : ℕ) : Context → ℕ
  | .suspended (.worker _ round .unlocked) _ => round + 1
  | .suspended (.worker _ round _) _ => round
  | .finished => N
  | _ => 0

section

variable {N : ℕ} {a : Args} {choice : Label} {s s' : Shared} {g g' : Context} {round : ℕ} {pc : Pc}
  {ws : List (Args × Context)} {i : ℕ}

theorem Enters.done_eq (h : Enters N a s g round pc) : done N g = round := by
  cases h <;> rfl

theorem Acquires.done_eq (h : Acquires a round s g) : done N g = round := by
  cases h <;> rfl

theorem Stands.done_le (h : Stands N s a g) : done N g ≤ N := by
  cases h with
  | start => exact Nat.zero_le N
  | finished => exact le_refl N
  | free hround hpc =>
    rename_i pc
    cases pc with
    | unlocked => exact hround
    | _ => exact hround.le
  | enter hround => exact hround.le
  | choosing hround => exact hround.le
  | signalled hround => exact hround.le

/-- A move makes one update or none. -/
theorem Move.done_eq (h : Move N a choice g s g' s') (hst : Stands N s a g) :
    (done N g' : ℤ) * a.delta = done N g * a.delta + (updateOf g').getD 0 := by
  cases h with
  | spin henter =>
    rw [henter.done_eq]
    rcases henter.pc_cases with rfl | rfl <;> exact (add_zero _).symm
  | acquire henter hmutex hacq =>
    rw [henter.done_eq, hacq.done_eq]
    cases hacq <;> exact (add_zero _).symm
  | update s round =>
    show ((round + 1 : ℕ) : ℤ) * a.delta = round * a.delta + a.delta
    push_cast
    ring
  | leave hN =>
    rename_i round
    have hround := hst.round_lt
    have heq : N = round + 1 := by omega
    show (N : ℤ) * a.delta = ((round + 1 : ℕ) : ℤ) * a.delta + 0
    rw [add_zero, ← heq]
  | skip s hN =>
    show (N : ℤ) * a.delta = ((0 : ℕ) : ℤ) * a.delta + 0
    rw [hN, add_zero]
  | _ => exact (add_zero _).symm

/-- The count as it follows from where the workers stand. -/
def total (N : ℕ) (ws : List (Args × Context)) : ℤ :=
  (ws.map fun p => (done N p.2 : ℤ) * p.1.delta).sum

theorem sum_map_set {α : Type} (f : α → ℤ) {l : List α} {i : ℕ} {x : α} (y : α)
    (h : l[i]? = some x) : ((l.set i y).map f).sum = (l.map f).sum + (f y - f x) := by
  induction l generalizing i with
  | nil => cases h
  | cons z l ih =>
    cases i with
    | zero =>
      obtain rfl := Option.some.inj h
      show f y + (l.map f).sum = f z + (l.map f).sum + (f y - f z)
      ring
    | succ i =>
      show f z + ((l.set i y).map f).sum = f z + (l.map f).sum + (f y - f x)
      rw [ih h]
      ring

theorem Move.total_eq (hm : Move N a choice g s g' s') (hst : Stands N s a g)
    (hi : ws[i]? = some (a, g)) (hcount : s.count = total N ws) :
    s'.count = total N (ws.set i (a, g')) := by
  have hdone := hm.done_eq hst
  unfold total at hcount ⊢
  rw [hm.count, sum_map_set _ (a, g') hi, ← hcount]
  linarith

/-! ### The invariant of fair runs -/

/-- The worker has updates left. -/
def Willing (N : ℕ) (ws : List (Args × Context)) (b : Args) : Prop :=
  ∃ g, (b, g) ∈ ws ∧ done N g < N

/-- If a worker of the kind is in the wait list, then another one of the kind is not and has updates
left. -/
def Manned (N : ℕ) (ws : List (Args × Context)) (s : Shared) (delta : ℤ) : Prop :=
  (∃ b ∈ ws.map Prod.fst, b.delta = delta ∧ b.name ∈ s.cond) →
    ∃ b, b.delta = delta ∧ b.name ∉ s.cond ∧ Willing N ws b

/-- The kind whose turn it is is manned, and so is the kind whose turn it will be once a signal has
been given. -/
structure Alert (N : ℕ) (ws : List (Args × Context)) (s : Shared) : Prop where
  turn : ∀ b ∈ ws.map Prod.fst, b.Guard s.count → Manned N ws s b.delta
  next : ∀ a round, (a, atSched a round .signalled) ∈ ws → Manned N ws s (-a.delta)

theorem Willing.set {b : Args} (h : Willing N ws b) (hi : ws[i]? = some (a, g))
    (hdone : b = a → done N g < N → done N g' < N) : Willing N (ws.set i (a, g')) b := by
  obtain ⟨gb, hmem, hlt⟩ := h
  obtain ⟨j, hj⟩ := List.mem_iff_getElem?.mp hmem
  by_cases hji : j = i
  · subst hji
    obtain ⟨rfl, rfl⟩ := Prod.mk.inj (Option.some.inj (hi.symm.trans hj))
    exact ⟨g', List.mem_set (List.getElem?_eq_some_iff.mp hi).1 _, hdone rfl hlt⟩
  · refine ⟨gb, List.mem_of_getElem? (i := j) ?_, hlt⟩
    rw [List.getElem?_set_ne (Ne.symm hji), hj]

theorem Willing.mem {b : Args} (h : Willing N ws b) : b ∈ ws.map Prod.fst := by
  obtain ⟨g, hmem, -⟩ := h
  exact List.mem_map_of_mem hmem

/-- Workers are known by their names. -/
theorem eq_of_name (hnames : (ws.map fun p => p.1.name).Nodup) {b c : Args}
    (hb : b ∈ ws.map Prod.fst) (hc : c ∈ ws.map Prod.fst) (h : b.name = c.name) : b = c := by
  have hnodup : ((ws.map Prod.fst).map Args.name).Nodup := by
    rw [List.map_map]
    exact hnames
  exact List.inj_on_of_nodup_map hnodup hb hc h

theorem manned_of_cond_eq_nil {delta : ℤ} (h : s.cond = []) : Manned N ws s delta := by
  rintro ⟨b, -, -, hmem⟩
  rw [h] at hmem
  cases hmem

/-- A move that leaves the wait list alone, and makes no update by a worker of the kind. -/
theorem Manned.set {delta : ℤ} (h : Manned N ws s delta) (hi : ws[i]? = some (a, g))
    (hcond : s'.cond = s.cond) (hdone : a.delta = delta → done N g' = done N g) :
    Manned N (ws.set i (a, g')) s' delta := by
  rw [Manned, map_fst_set g' hi, hcond]
  intro hwaits
  obtain ⟨b, hdelta, hname, hwilling⟩ := h hwaits
  refine ⟨b, hdelta, hname, hwilling.set hi fun hb hlt => ?_⟩
  rw [hdone (hb ▸ hdelta)]
  exact hlt

/-- A move after which the count and the wait list are the same. -/
theorem Alert.quiet (h : Alert N ws s) (hi : ws[i]? = some (a, g)) (hcount : s'.count = s.count)
    (hcond : s'.cond = s.cond) (hdone : done N g' = done N g)
    (hnext : ∀ round, g' = atSched a round .signalled → s.cond = []) :
    Alert N (ws.set i (a, g')) s' := by
  refine ⟨fun b hb hguard => ?_, fun a₁ round hmem => ?_⟩
  · rw [map_fst_set g' hi] at hb
    rw [hcount] at hguard
    exact (h.turn b hb hguard).set hi hcond fun _ => hdone
  · obtain ⟨j, hj⟩ := List.mem_iff_getElem?.mp hmem
    rcases getElem?_set_cases hj with ⟨-, heq⟩ | ⟨-, hj⟩
    · obtain ⟨rfl, rfl⟩ := Prod.mk.inj heq
      exact manned_of_cond_eq_nil (hcond.trans (hnext round rfl))
    · exact (h.next a₁ round (List.mem_of_getElem? hj)).set hi hcond fun _ => hdone

/-- After a move of the worker that holds the lock, no other worker has just given a signal. -/
theorem next_of_holds (hpool : Pool N ws s) (hi : ws[i]? = some (a, g)) (hg : holds g = true)
    {a₁ : Args} (hmem : (a₁, atSched a₁ round .signalled) ∈ ws.set i (a, g')) :
    a₁ = a ∧ g' = atSched a round .signalled := by
  obtain ⟨j, hj⟩ := List.mem_iff_getElem?.mp hmem
  rcases getElem?_set_cases hj with ⟨-, heq⟩ | ⟨hji, hj⟩
  · obtain ⟨rfl, rfl⟩ := Prod.mk.inj heq
    exact ⟨rfl, rfl⟩
  · cases hpool.not_holds hi hg hji hj

/-- A worker goes to sleep when it is not its turn. -/
theorem Alert.sleep (h : Alert N ws s) (hpool : Pool N ws s)
    (hnames : (ws.map fun p => p.1.name).Nodup) (hi : ws[i]? = some (a, atSched a round .enter)) :
    Alert N (ws.set i (a, atSched a round .wait))
      { s with mutex := .unlocked, cond := s.cond ++ [a.name] } := by
  have hmem := List.mem_of_getElem? hi
  have ha : a ∈ ws.map Prod.fst := List.mem_map_of_mem hmem
  have hguard : ¬a.Guard s.count := by
    cases hpool.stands _ hmem with
    | free hround hpc => cases hpc
    | enter hround hguard => exact hguard
  refine ⟨fun b hb hb' => ?_, fun a₁ round hmem => ?_⟩
  · rw [map_fst_set _ hi] at hb
    have hdelta : b.delta ≠ a.delta := by
      intro heq
      unfold Args.Guard at hguard hb'
      rw [← heq] at hguard
      exact hguard hb'
    -- the worker is not of this kind
    have hne : ∀ c ∈ ws.map Prod.fst, c.delta = b.delta → c.name ≠ a.name := by
      intro c hc hcb hname
      rw [eq_of_name hnames hc ha hname] at hcb
      exact hdelta hcb.symm
    rw [Manned, map_fst_set _ hi]
    rintro ⟨c, hc, hcb, hname⟩
    rw [List.mem_append, List.mem_singleton] at hname
    obtain ⟨c', hc'b, hname', hwilling⟩ :=
      h.turn b hb hb' ⟨c, hc, hcb, hname.resolve_right (hne c hc hcb)⟩
    refine ⟨c', hc'b, ?_, hwilling.set hi fun _ hlt => hlt⟩
    rw [List.mem_append, List.mem_singleton]
    rintro (hin | hin)
    · exact hname' hin
    · exact hne c' hwilling.mem hc'b hin
  · cases (next_of_holds hpool hi rfl hmem).2

/-- A fair signal. -/
theorem Alert.wake (h : Alert N ws s) (hpool : Pool N ws s)
    (hnames : (ws.map fun p => p.1.name).Nodup) (hi : ws[i]? = some (a, atChoose a round s.cond))
    {t : Text} (ht : t ∈ s.cond)
    (hfair : (∃ b ∈ ws.map Prod.fst, b.delta = -a.delta ∧ b.name ∈ s.cond) →
      ∃ b ∈ ws.map Prod.fst, b.delta = -a.delta ∧ b.name = t) :
    Alert N (ws.set i (a, atSched a round .signalled)) { s with cond := s.cond.erase t } := by
  refine ⟨fun b hb hguard => ?_, fun a₁ round₁ hmem => ?_⟩
  · rw [map_fst_set _ hi] at hb
    rw [Manned, map_fst_set _ hi]
    rintro ⟨c, hc, hcb, hname⟩
    obtain ⟨c', hc'b, hname', hwilling⟩ :=
      h.turn b hb hguard ⟨c, hc, hcb, List.mem_of_mem_erase hname⟩
    exact ⟨c', hc'b, fun hin => hname' (List.mem_of_mem_erase hin),
      hwilling.set hi fun _ hlt => hlt⟩
  · obtain ⟨rfl, -⟩ := next_of_holds hpool hi rfl hmem
    rw [Manned, map_fst_set _ hi]
    rintro ⟨c, hc, hca, hname⟩
    -- the worker that is woken is of the other kind
    obtain ⟨b, hb, hba, rfl⟩ := hfair ⟨c, hc, hca, List.mem_of_mem_erase hname⟩
    refine ⟨b, hba, List.Nodup.not_mem_erase hpool.nodup, ?_⟩
    obtain ⟨⟨b', gb⟩, hmemb, rfl⟩ := List.mem_map.mp hb
    obtain ⟨j, hj⟩ := List.mem_iff_getElem?.mp hmemb
    obtain ⟨roundb, rfl⟩ := hpool.waits hnames hj ht
    have hwilling : Willing N ws b' := ⟨_, hmemb, (hpool.stands _ hmemb).round_lt⟩
    exact hwilling.set hi fun _ hlt => hlt

/-- An update gives the turn to the other kind. -/
theorem Alert.update (h : Alert N ws s) (hpool : Pool N ws s)
    (hkinds : ∀ b ∈ ws.map Prod.fst, b.delta = 1 ∨ b.delta = -1)
    (hi : ws[i]? = some (a, atSched a round .signalled)) :
    Alert N (ws.set i (a, atSched a round .unlocked))
      { s with count := s.count + a.delta, mutex := .unlocked } := by
  have hmem := List.mem_of_getElem? hi
  have hguard : a.Guard s.count := by
    cases hpool.stands _ hmem with
    | free hround hpc => cases hpc
    | signalled hround hguard => exact hguard
  refine ⟨fun b hb hb' => ?_, fun a₁ round hmem => ?_⟩
  · rw [map_fst_set _ hi] at hb
    have hdelta : b.delta = -a.delta := by
      have hcount := hpool.count_mem
      have hka := hkinds a (List.mem_map_of_mem hmem)
      have hkb := hkinds b hb
      unfold Args.Guard at hguard hb'
      simp only at hb'
      omega
    rw [hdelta]
    refine (h.next a round hmem).set hi rfl fun heq => ?_
    have hka := hkinds a (List.mem_map_of_mem hmem)
    omega
  · cases (next_of_holds hpool hi rfl hmem).2

/-- **One fair move** keeps the invariant. -/
theorem Alert.move (h : Alert N ws s) (hpool : Pool N ws s)
    (hnames : (ws.map fun p => p.1.name).Nodup)
    (hkinds : ∀ b ∈ ws.map Prod.fst, b.delta = 1 ∨ b.delta = -1) (hi : ws[i]? = some (a, g))
    (hfair : ∀ round t, g = atChoose a round s.cond → choice = chooseLabel (Value.str t) →
      (∃ b ∈ ws.map Prod.fst, b.delta = -a.delta ∧ b.name ∈ s.cond) →
      ∃ b ∈ ws.map Prod.fst, b.delta = -a.delta ∧ b.name = t)
    (hm : Move N a choice g s g' s') : Alert N (ws.set i (a, g')) s' := by
  cases hm with
  | spin henter =>
    refine h.quiet hi rfl rfl ?_ fun round heq => ?_
    · rw [henter.done_eq]
      rcases henter.pc_cases with rfl | rfl <;> rfl
    · rcases henter.pc_cases with rfl | rfl <;> cases heq
  | acquire henter hmutex hacq =>
    refine h.quiet hi rfl rfl ?_ fun round heq => ?_
    · rw [henter.done_eq, hacq.done_eq]
    · -- it has passed its signal only because there is nobody to wake
      cases hacq with
      | signalled hguard hcond => exact hcond
      | enter => cases heq
      | choosing => cases heq
  | sleep => exact h.sleep hpool hnames hi
  | wait => exact h.quiet hi rfl rfl rfl fun round heq => nomatch heq
  | wake round ht hchoice => exact h.wake hpool hnames hi ht (hfair round _ rfl hchoice)
  | update => exact h.update hpool hkinds hi
  | skip s hN => exact h.quiet hi rfl rfl hN fun round heq => nomatch heq
  | leave hN =>
    have hround := (hpool.stands _ (List.mem_of_getElem? hi)).round_lt
    exact h.quiet hi rfl rfl (Nat.le_antisymm hN hround) fun round heq => nomatch heq

end

/-! ### Fair runs -/

section

variable {T_p T_c N k : ℕ} {choice : Label} {v v' : View}

/-- The invariant of fair runs, with the count. -/
def View.Alert (N : ℕ) : View → Prop
  | .start => True
  | .running _ ws _ s => CondVar.Alert N ws s ∧ s.count = total N ws

theorem alert_of_cond_eq_nil {ws : List (Args × Context)} {s : Shared} (h : s.cond = []) :
    Alert N ws s :=
  ⟨fun _ _ _ => manned_of_cond_eq_nil h, fun _ _ _ => manned_of_cond_eq_nil h⟩

theorem chooseLabel_str_inj {t t' : Text}
    (h : chooseLabel (Value.str t) = chooseLabel (Value.str t')) : t = t' :=
  List.append_cancel_left (Label.text.inj h)

/-- Who waits, as the contexts show it. -/
theorem waits_iff {rest : List Args} {ws : List (Args × Context)} {current : ℕ} {s : Shared}
    (hws : ws.map Prod.fst ++ rest = workers T_p T_c) (hpool : Pool N ws s) {delta : ℤ} {t : Text} :
    Waits (View.running rest ws current s).contexts s delta t ↔
      t ∈ s.cond ∧ ∃ b ∈ ws.map Prod.fst, b.delta = delta ∧ b.name = t := by
  constructor
  · rintro ⟨ht, a, round, hname, hdelta, hmem⟩
    obtain ⟨j, hj⟩ := List.mem_iff_getElem?.mp hmem
    rcases View.getElem?_contexts_cases hpool hj with ⟨-, hmain⟩ | ⟨i, b, -, hi, hst⟩
    · cases rest <;> cases hmain
    · obtain rfl : b = a := by
        cases hst
        rfl
      exact ⟨ht, b, List.mem_map_of_mem (List.mem_of_getElem? hi), hdelta, hname⟩
  · rintro ⟨ht, b, hb, hdelta, rfl⟩
    obtain ⟨⟨b', g⟩, hmem, rfl⟩ := List.mem_map.mp hb
    obtain ⟨i, hi⟩ := List.mem_iff_getElem?.mp hmem
    obtain ⟨round, rfl⟩ := hpool.waits (View.names_nodup hws) hi ht
    exact ⟨ht, b', round, rfl, hdelta, List.mem_cons_of_mem _ (List.mem_map_of_mem hmem)⟩

/-- **One fair step** keeps the invariant. -/
theorem View.Alert.step (h : v.Alert N) (hgood : v.Good T_p T_c N)
    (hstep : v.Step T_p T_c N choice v')
    (hfair : ∀ s, v.heap = some s → WakesOther v.contexts v.current s choice) : v'.Alert N := by
  cases hstep with
  | main => exact ⟨alert_of_cond_eq_nil rfl, rfl⟩
  | spawn a rest ws current s =>
    cases hgood with
    | running hws hpool hrest =>
      obtain ⟨-, rfl⟩ := hrest (List.cons_ne_nil a rest)
      refine ⟨alert_of_cond_eq_nil rfl, ?_⟩
      rw [h.2, total, total, List.map_append, List.sum_append]
      simp [done]
  | move hi hcur hm =>
    rename_i ws current i a g g' s s'
    cases hgood with
    | running hws hpool hrest =>
      have hst := hpool.stands _ (List.mem_of_getElem? hi)
      refine ⟨h.1.move hpool (View.names_nodup hws) (fun b hb => ?_) hi ?_ hm,
        hm.total_eq hst hi h.2⟩
      · rw [List.append_nil] at hws
        rw [hws] at hb
        exact delta_of_mem_workers hb
      · rintro round t rfl rfl ⟨b, hb, hdelta, hname⟩
        obtain rfl := hcur round rfl
        have hcontext : (View.running [] ws (i + 1) s).contexts[i + 1]? =
            some (atChoose a round s.cond) := by
          rw [View.getElem?_contexts_succ, hi]
          rfl
        obtain ⟨t', hwaits, heq⟩ := hfair s rfl a round _ hcontext
          ⟨b.name, (waits_iff hws hpool).mpr ⟨hname, b, hb, hdelta, rfl⟩⟩
        obtain rfl := chooseLabel_str_inj heq
        exact ((waits_iff hws hpool).mp hwaits).2

/-- **Every fair run** reaches a view with the invariant. -/
theorem exists_alert_view (w : World (Option Shared)) {trace : List Label}
    {ref : Reference Value Func Frame (Option Shared)}
    (href : Reference.run (condVar T_p T_c N) trace = some ref)
    (hfair : FairRun T_p T_c N k w trace) :
    ∃ v, v.Good T_p T_c N ∧ Shows ref v ∧ v.Alert N := by
  suffices hrun : ∃ v, v.Good T_p T_c N ∧ Shows ref v ∧
      (FairRun T_p T_c N k w trace → v.Alert N) by
    obtain ⟨v, hgood, hshows, halert⟩ := hrun
    exact ⟨v, hgood, hshows, halert hfair⟩
  refine run_induction (P := fun trace v => FairRun T_p T_c N k w trace → v.Alert N)
    (fun _ => trivial) ?_ trace href
  intro trace choice ref ref' v v' href hshows hgood _ _ hstep hP hfair
  have hprefix : FairRun T_p T_c N k w trace := fun p choice' hp =>
    hfair p choice' (hp.trans (List.prefix_append ..))
  refine (hP hprefix).step hgood hstep fun s hs => ?_
  -- the operating system is in the state of the view, so the choice is fair there
  have hsim := runSim (condVar T_p T_c N) (trace.length + k) trace (Nat.le_add_right ..) [] rfl w
  rw [href] at hsim
  obtain ⟨os, w', hrun, -, -, ρ, hsim⟩ := hsim.exists_ok
  have hcontexts : os.contexts = v.contexts := hsim.sameState.contexts.trans hshows.contexts
  have hcurrent : os.current = v.current := hsim.current.trans hshows.current
  obtain ⟨th, hth⟩ : ∃ th, th ∈ os.threads := by
    apply List.exists_mem_of_ne_nil
    intro hnil
    rw [OperatingSystem.contexts, hnil] at hcontexts
    cases v <;> cases hcontexts
  have hheap := heap_of_sim hsim hshows th hth
  rw [hs] at hheap
  rw [← hcontexts, ← hcurrent]
  exact hfair trace choice (List.prefix_refl _) os w' hrun th hth s hheap

/-! ### Fair runs do not get stuck -/

theorem Stands.unfinished_eq {s : Shared} {a : Args} {g : Context} (h : Stands N s a g)
    (hlive : g ≠ .finished) : unfinished g = some a := by
  cases h with
  | finished => exact absurd rfl hlive
  | _ => rfl

theorem unfinished_mainAt (rest : List Args) : unfinished (mainAt rest) = none := by
  cases rest <;> rfl

/-- With equally many producers and consumers, the rounds of all workers add up to nothing. -/
theorem sum_delta_workers (T N : ℕ) : ((workers T T).map fun a => (N : ℤ) * a.delta).sum = 0 := by
  unfold workers
  rw [List.map_append, List.map_map, List.map_map, List.sum_append]
  simp [Function.comp_def]

/-- If everybody sleeps, then the workers whose turn it is have finished. -/
theorem Alert.finished {ws : List (Args × Context)} {s : Shared} (h : Alert N ws s)
    (hasleep : ∀ p ∈ ws, p.2 ≠ .finished → p.1.name ∈ s.cond) :
    ∀ p ∈ ws, p.1.Guard s.count → done N p.2 = N := by
  intro p hp hguard
  by_cases hlive : p.2 = .finished
  · rw [hlive]
    rfl
  · obtain ⟨b, -, hname, g, hmem, hdone⟩ := h.turn p.1 (List.mem_map_of_mem hp) hguard
      ⟨p.1, List.mem_map_of_mem hp, rfl, hasleep p hp hlive⟩
    refine absurd (hasleep (b, g) hmem ?_) hname
    rintro rfl
    exact absurd hdone (lt_irrefl N)

section

variable {ws : List (Args × Context)} {s : Shared}

theorem Pool.done_lt (h : Pool N ws s) (hnames : (ws.map fun p => p.1.name).Nodup)
    {p : Args × Context} (hp : p ∈ ws) (hname : p.1.name ∈ s.cond) : done N p.2 < N := by
  obtain ⟨i, hi⟩ := List.mem_iff_getElem?.mp hp
  obtain ⟨round, hwait⟩ := h.waits hnames hi hname
  have hst := h.stands p hp
  rw [hwait] at hst ⊢
  exact hst.round_lt

/-- If it is the turn of the producers, then all of them have finished, and a consumer has not. -/
theorem total_pos (hkinds : ∀ p ∈ ws, p.1.delta = 1 ∨ p.1.delta = -1)
    (hle : ∀ p ∈ ws, done N p.2 ≤ N) (hfin : ∀ p ∈ ws, p.1.delta = 1 → done N p.2 = N)
    {p₀ : Args × Context} (hp₀ : p₀ ∈ ws) (hlt : done N p₀.2 < N)
    (hsum : (ws.map fun p => (N : ℤ) * p.1.delta).sum = 0) : 0 < total N ws := by
  have hterm : ∀ p ∈ ws, (N : ℤ) * p.1.delta ≤ done N p.2 * p.1.delta := by
    intro p hp
    have := hle p hp
    rcases hkinds p hp with hd | hd
    · rw [hfin p hp hd]
    · rw [hd]
      omega
  have hstrict : (N : ℤ) * p₀.1.delta < done N p₀.2 * p₀.1.delta := by
    rcases hkinds p₀ hp₀ with hd | hd
    · have := hfin p₀ hp₀ hd
      omega
    · rw [hd]
      omega
  rw [← hsum]
  exact List.sum_lt_sum _ _ hterm ⟨p₀, hp₀, hstrict⟩

/-- If it is the turn of the consumers, then all of them have finished. -/
theorem total_nonpos (hkinds : ∀ p ∈ ws, p.1.delta = 1 ∨ p.1.delta = -1)
    (hle : ∀ p ∈ ws, done N p.2 ≤ N) (hfin : ∀ p ∈ ws, p.1.delta = -1 → done N p.2 = N)
    (hsum : (ws.map fun p => (N : ℤ) * p.1.delta).sum = 0) : total N ws ≤ 0 := by
  rw [← hsum]
  apply List.sum_le_sum
  intro p hp
  have := hle p hp
  rcases hkinds p hp with hd | hd
  · rw [hd]
    omega
  · rw [hfin p hp hd]

/-- If everybody sleeps, then the count is not the difference of the updates. -/
theorem Alert.total_ne (h : Alert N ws s) (hpool : Pool N ws s)
    (hnames : (ws.map fun p => p.1.name).Nodup)
    (hkinds : ∀ p ∈ ws, p.1.delta = 1 ∨ p.1.delta = -1)
    (hasleep : ∀ p ∈ ws, p.2 ≠ .finished → p.1.name ∈ s.cond)
    {p₀ : Args × Context} (hp₀ : p₀ ∈ ws) (hlive : p₀.2 ≠ .finished)
    (hsum : (ws.map fun p => (N : ℤ) * p.1.delta).sum = 0) : s.count ≠ total N ws := by
  have hfin := h.finished hasleep
  have hle : ∀ p ∈ ws, done N p.2 ≤ N := fun p hp => (hpool.stands p hp).done_le
  obtain ⟨hnonneg, hle1⟩ := hpool.count_mem
  have hcount : s.count = 0 ∨ s.count = 1 := by omega
  rcases hcount with hzero | hone
  · have hlt := hpool.done_lt hnames hp₀ (hasleep p₀ hp₀ hlive)
    have hpos := total_pos hkinds hle
      (fun p hp hd => hfin p hp ⟨by omega, by omega⟩) hp₀ hlt hsum
    omega
  · have hnonpos := total_nonpos hkinds hle
      (fun p hp hd => hfin p hp ⟨by omega, by omega⟩) hsum
    omega

end

/-- A view with the invariant is not stuck. -/
theorem View.Alert.not_stuck {T : ℕ} (h : v.Alert N) (hgood : v.Good T T N) {s : Shared}
    (hs : v.heap = some s) : ¬Stuck v.contexts s := by
  rintro ⟨⟨g, hg, hsome⟩, hall⟩
  cases hgood with
  | start => cases hs
  | running hws hpool hrest =>
    rename_i rest ws current s'
    obtain rfl := Option.some.inj hs
    have hasleep : ∀ p ∈ ws, p.2 ≠ .finished → p.1.name ∈ s'.cond := fun p hp hlive =>
      hall p.2 (List.mem_cons_of_mem _ (List.mem_map_of_mem hp)) p.1
        ((hpool.stands p hp).unfinished_eq hlive)
    obtain ⟨p₀, hp₀, hlive⟩ : ∃ p ∈ ws, p.2 ≠ .finished := by
      rcases List.mem_cons.mp hg with rfl | hg
      · rw [unfinished_mainAt] at hsome
        cases hsome
      · obtain ⟨p, hp, rfl⟩ := List.mem_map.mp hg
        refine ⟨p, hp, fun heq => ?_⟩
        rw [heq] at hsome
        cases hsome
    -- nobody sleeps before the last worker is spawned
    obtain rfl : rest = [] := by
      by_contra hne
      have hmem := hasleep p₀ hp₀ hlive
      rw [(hrest hne).2] at hmem
      cases hmem
    have hnames := View.names_nodup hws
    rw [List.append_nil] at hws
    refine h.1.total_ne hpool hnames (fun p hp => ?_) hasleep hp₀ hlive ?_ h.2
    · exact delta_of_mem_workers (hws ▸ List.mem_map_of_mem hp)
    · have hsum := sum_delta_workers T N
      rw [← hws, List.map_map] at hsum
      exact hsum

end

/-! ### One producer and one consumer -/

theorem reference_run_of_prefix {T_p T_c N : ℕ} {p trace : List Label} (hp : p <+: trace)
    {ref : Reference Value Func Frame (Option Shared)}
    (href : Reference.run (condVar T_p T_c N) trace = some ref) :
    ∃ ref₀, Reference.run (condVar T_p T_c N) p = some ref₀ := by
  obtain ⟨u, rfl⟩ := hp
  unfold Reference.run at href
  rw [List.foldlM_append] at href
  obtain ⟨ref₀, href₀, -⟩ := Option.bind_eq_some_iff.mp href
  exact ⟨ref₀, href₀⟩

/-- The choices at a `sys_choose` are the names in the wait list. -/
theorem choice_of_choosing {T_p T_c N : ℕ} {ref ref' : Reference Value Func Frame (Option Shared)}
    {v : View} {choice : Label} {s : Shared} {a : Args} {round : ℕ} {call : Syscall Value Func}
    (hgood : v.Good T_p T_c N) (hshows : Shows ref v) (hinv : ref.Inv (condVar T_p T_c N))
    (hstep : ref.step (condVar T_p T_c N) choice = some ref') (hs : v.heap = some s)
    (hcur : v.contexts[v.current]? = some (.suspended (.worker a round .choosing) call)) :
    ∃ t ∈ s.cond, choice = chooseLabel (Value.str t) := by
  obtain ⟨r, hadv, -⟩ := Option.bind_eq_some_iff.mp hstep
  obtain ⟨r₁, hchoose, -⟩ := Option.bind_eq_some_iff.mp hadv
  obtain ⟨act, g, hact, -⟩ := hinv.choose_cases _ hchoose
  obtain ⟨ref₁, value, contexts', current', -, hsel, -⟩ :=
    hshows.choose hinv (fun frame call => hgood.plain) hact
  have hcall : call = .dev (.choose (s.cond.map .str)) := by
    cases hgood with
    | start => cases hs
    | running hws hpool hrest =>
      rename_i rest ws current s'
      obtain rfl := Option.some.inj hs
      rcases View.getElem?_contexts_cases hpool hcur with ⟨-, hmain⟩ | ⟨i, b, -, -, hst⟩
      · cases rest <;> cases hmain
      · cases hst with
        | free hround hpc => cases hpc
        | choosing => rfl
  subst hcall
  cases hsel with
  | spawn hg => cases hcur.symm.trans hg
  | start hyields => cases hyields _ _ hcur
  | sched hyields => cases hyields _ _ hcur
  | choose hg hv hchoice =>
    cases hcur.symm.trans hg
    obtain ⟨t, ht, rfl⟩ := List.mem_map.mp hv
    exact ⟨t, ht, hchoice⟩

theorem delta_of_ne_workers {a b : Args} (ha : a ∈ workers 1 1) (hb : b ∈ workers 1 1)
    (hne : b ≠ a) : b.delta = -a.delta := by
  simp only [workers, List.range_one, List.map_cons, List.map_nil, List.cons_append,
    List.nil_append, List.mem_cons, List.not_mem_nil, or_false] at ha hb
  rcases ha with rfl | rfl <;> rcases hb with rfl | rfl
  · exact absurd rfl hne
  · rfl
  · rfl
  · exact absurd rfl hne

/-- With one producer and one consumer, the names in the wait list are those of the other kind. -/
theorem waits_other {N : ℕ} {v : View} (hgood : v.Good 1 1 N) {s : Shared} (hs : v.heap = some s)
    {a : Args} {round : ℕ} {call : Syscall Value Func}
    (hcur : v.contexts[v.current]? = some (.suspended (.worker a round .choosing) call)) {t : Text}
    (ht : t ∈ s.cond) : Waits v.contexts s (-a.delta) t := by
  cases hgood with
  | start => cases hs
  | running hws hpool hrest =>
    rename_i rest ws current s'
    obtain rfl := Option.some.inj hs
    rcases View.getElem?_contexts_cases hpool hcur with ⟨-, hmain⟩ | ⟨i, a', -, hi, hst⟩
    · cases rest <;> cases hmain
    · obtain rfl : a' = a := by
        cases hst <;> rfl
      obtain ⟨b, roundb, hname, hmem⟩ := hpool.waiting t ht
      have hworkers : ∀ c ∈ ws.map Prod.fst, c ∈ workers 1 1 := fun c hc =>
        hws ▸ List.mem_append_left rest hc
      -- the worker at its `sys_choose` does not wait
      have hne : b ≠ a' := by
        rintro rfl
        obtain ⟨round', heq⟩ := hpool.waits (View.names_nodup hws) hi (hname ▸ ht)
        cases heq
      refine (waits_iff hws hpool).mpr ⟨ht, b, List.mem_map_of_mem hmem, ?_, hname⟩
      exact delta_of_ne_workers (hworkers a' (List.mem_map_of_mem (List.mem_of_getElem? hi)))
        (hworkers b (List.mem_map_of_mem hmem)) hne

/-- With one producer and one consumer, only the other one can be woken. -/
theorem fairRun_one {N k : ℕ} {trace : List Label} {w w' : World (Option Shared)}
    {os : OperatingSystem Value Func Frame}
    (hrun : OperatingSystem.run (condVar 1 1 N) (trace.length + k) [] trace w = (.ok os, w')) :
    FairRun 1 1 N k w trace := by
  intro p choice hp os₁ w₁ hrun₁ th hth s hheap a round call hcur _
  obtain ⟨ref, href, -⟩ :=
    (runSim (condVar 1 1 N) _ trace (Nat.le_add_right ..) [] rfl w).exists_some hrun
  obtain ⟨ref₂, href₂⟩ := reference_run_of_prefix hp href
  obtain ⟨ref₁, href₁, -, -, ρ, hsim⟩ :=
    (runSim (condVar 1 1 N) _ p (Nat.le_add_right ..) [] rfl w).exists_some hrun₁
  rw [Reference.run_concat, href₁] at href₂
  obtain ⟨v, hgood, hshows, -⟩ := exists_view w href₁
  have hs : v.heap = some s := by
    have heq := heap_of_sim hsim hshows th hth
    rw [hheap] at heq
    exact (Option.some.inj heq).symm
  have hcontexts : os₁.contexts = v.contexts := hsim.sameState.contexts.trans hshows.contexts
  have hcurrent : os₁.current = v.current := hsim.current.trans hshows.current
  rw [hcontexts, hcurrent] at hcur
  rw [hcontexts]
  obtain ⟨t, ht, hchoice⟩ :=
    choice_of_choosing hgood hshows (Reference.inv_run _ p href₁) href₂ hs hcur
  exact ⟨t, waits_other hgood hs hcur ht, hchoice⟩

/-- **Fair runs do not get stuck.**  With equally many producers and consumers, and any number of
rounds: in a run where every signal goes to a worker of the other kind, unless there is none in the
wait list, it never happens that there are unfinished workers and all of them are in the wait
list. -/
theorem run_not_stuck (T N : ℕ) (trace : List Label) (k : ℕ) (w w' : World (Option Shared))
    (os : OperatingSystem Value Func Frame)
    (hrun : OperatingSystem.run (condVar T T N) (trace.length + k) [] trace w = (.ok os, w'))
    (hfair : FairRun T T N k w trace) :
    ∀ th ∈ os.threads, ∀ s, w'.heaps[th.heap]? = some (some s) → ¬Stuck os.contexts s := by
  intro th hth s hheap
  obtain ⟨ref, href, -, -, ρ, hsim⟩ :=
    (runSim (condVar T T N) _ trace (Nat.le_add_right ..) [] rfl w).exists_some hrun
  obtain ⟨v, hgood, hshows, halert⟩ := exists_alert_view w href hfair
  have hs : v.heap = some s := by
    have heq := heap_of_sim hsim hshows th hth
    rw [hheap] at heq
    exact (Option.some.inj heq).symm
  rw [hsim.sameState.contexts, hshows.contexts]
  exact halert.not_stuck hgood hs

theorem run_signalTrace :
    (OperatingSystem.run (condVar 1 1 1) (signalTrace.length + 0) [] signalTrace
      ⟨[], 0, []⟩).1.isOk = true := by
  decide +kernel

theorem run_not_stuck_signalTrace : ∃ os w',
    OperatingSystem.run (condVar 1 1 1) (signalTrace.length + 0) [] signalTrace ⟨[], 0, []⟩ =
      (.ok os, w') ∧
    FairRun 1 1 1 0 ⟨[], 0, []⟩ signalTrace ∧
    ∀ th ∈ os.threads, ∀ s, w'.heaps[th.heap]? = some (some s) → ¬Stuck os.contexts s := by
  have hok := run_signalTrace
  cases hrun : OperatingSystem.run (condVar 1 1 1) (signalTrace.length + 0) [] signalTrace
    ⟨[], 0, []⟩ with
  | mk r w' =>
    rw [hrun] at hok
    cases r with
    | error e => cases hok
    | ok os =>
      have hfair : FairRun 1 1 1 0 ⟨[], 0, []⟩ signalTrace := fairRun_one hrun
      exact ⟨os, w', rfl, hfair, run_not_stuck 1 1 signalTrace 0 ⟨[], 0, []⟩ w' os hrun hfair⟩

/-! ### A wasted wake-up -/

/-- Two consumers wait.  The first producer wakes one of them and returns; the second producer
waits.  The consumer that was woken takes the item and wakes the other consumer, which finds
nothing and waits again, as does the producer. -/
def stuckTrace : List Label :=
  [.text ['m', 'a', 'i', 'n'], .text ['s', 'p', 'a', 'w', 'n'], .text ['s', 'p', 'a', 'w', 'n'],
    .text ['s', 'p', 'a', 'w', 'n'], .text ['s', 'p', 'a', 'w', 'n'],
    .text ['t', '4'], .text ['t', '4'], .text ['t', '5'], .text ['t', '5'],
    .text ['t', '2'], chooseLabel (Value.str ['T', 'c', '0']), .text ['t', '2'], .text ['t', '2'],
    .text ['t', '3'], .text ['t', '3'],
    .text ['t', '4'], chooseLabel (Value.str ['T', 'c', '1']), .text ['t', '4'], .text ['t', '4'],
    .text ['t', '5'], .text ['t', '5']]

/-- The contexts after it. -/
def stuckContexts : List Context :=
  [.finished, .finished, atSched ⟨['T', 'p', '1'], 1⟩ 0 .wait, .finished,
    atSched ⟨['T', 'c', '1'], -1⟩ 0 .wait]

theorem run_stuckTrace :
    (OperatingSystem.run (condVar 2 2 1) (stuckTrace.length + 0) [] stuckTrace
      ⟨[], 0, []⟩).1.toOption.map (fun os => (os.contexts, os.threads.map Thread.heap)) =
        some (stuckContexts, [0, 0, 0, 0, 0]) ∧
    (OperatingSystem.run (condVar 2 2 1) (stuckTrace.length + 0) [] stuckTrace
      ⟨[], 0, []⟩).2.heaps = [some ⟨.unlocked, 0, [['T', 'p', '1'], ['T', 'c', '1']]⟩] := by
  decide +kernel

/-- **The program can get stuck**: two producers, two consumers, one round. -/
theorem not_neverStuck : ¬∀ T N, 1 ≤ T → 1 ≤ N → NeverStuck T N := by
  intro h
  obtain ⟨hcontexts, hheaps⟩ := run_stuckTrace
  cases hrun : OperatingSystem.run (condVar 2 2 1) (stuckTrace.length + 0) [] stuckTrace
    ⟨[], 0, []⟩ with
  | mk r w' =>
    rw [hrun] at hcontexts hheaps
    cases r with
    | error e => cases hcontexts
    | ok os =>
      obtain ⟨hcontexts, hthreads⟩ := Prod.mk.inj (Option.some.inj hcontexts)
      replace hcontexts : os.contexts = stuckContexts := hcontexts
      replace hthreads : os.threads.map Thread.heap = [0, 0, 0, 0, 0] := hthreads
      have hmem : 0 ∈ os.threads.map Thread.heap := by
        rw [hthreads]
        exact List.mem_cons_self
      obtain ⟨th, hth, hzero⟩ := List.mem_map.mp hmem
      refine h 2 1 one_le_two (le_refl 1) stuckTrace 0 ⟨[], 0, []⟩ os w' hrun th hth
        ⟨.unlocked, 0, [['T', 'p', '1'], ['T', 'c', '1']]⟩ ?_ ?_
      · rw [hzero, show w'.heaps = _ from hheaps]
        rfl
      · rw [hcontexts]
        decide

end Jyyos.Mosaic.CondVar
