import Jyyos.Algorithm.Itertools
import Jyyos.Mosaic.Equiv.Terminal
import Jyyos.Mosaic.ForkBuf
import Mathlib.Algebra.Ring.Nat

/-!
# What `fork-buf.py` writes

Every process of the program is in one of a few phases (`Proc`), and a step of the operating system
takes one process to its next phase; a fork adds a process (`Next`, `Shows.step`).  A process that
has `k` forks behind it will, with its descendants, write one buffer for each way in which the other
`N - k` forks can end: in the parent or in the child.  This is what each step keeps
(`Next.account`).  So at the end there are `2 ^ N` buffers, and for each set of rounds there is
exactly one that has its zeros in these rounds (`stdout_run`); and no order of the processes leads
into a state from which there is no step (`run_goes_on`).
-/

namespace Jyyos.Mosaic.ForkBuf

open Itertools

/-! ### Phases -/

/-- Where a process is, with the values of `pid` in its buffer. -/
inductive Proc where
  | start
  | forking (buf : List ℕ)
  /-- A child that has not run yet. -/
  | child (buf : List ℕ)
  | sched (buf : List ℕ) (pid : ℕ)
  | writing (buf : List ℕ)
  | done (buf : List ℕ)
deriving DecidableEq

/-- The buffer. -/
def text (buf : List ℕ) : Text := buf.flatMap fun pid : ℕ => line (.int pid)

namespace Proc

def context : Proc → Gen Value Func Frame
  | start => .start .main
  | forking buf => .suspended (.fork buf.length) .fork
  | child buf => .suspended (.fork buf.length) .fork
  | sched buf pid => .suspended (.sched buf.length (.int pid)) .sched
  | writing buf => .suspended .write (.dev (.write [.str (text buf)]))
  | done _ => .finished

def heap : Proc → Heap
  | start => none
  | forking buf => some (text buf)
  | child buf => some (text buf)
  | sched buf _ => some (text buf)
  | writing buf => some (text buf)
  | done buf => some (text buf)

/-- The phase at the beginning of a round, or behind the last one. -/
def round (N : ℕ) (buf : List ℕ) : Proc := if buf.length < N then forking buf else writing buf

end Proc

/-- What a step does to the phases and to the buffers that have been written. -/
inductive Next (N : ℕ) : List Proc → List (List ℕ) → List Proc → List (List ℕ) → Prop
  | start {ps bufs i} (h : ps[i]? = some .start) :
      Next N ps bufs (ps.set i (.round N [])) bufs
  | fork {ps bufs i buf} (h : ps[i]? = some (.forking buf)) (pid : ℕ) :
      Next N ps bufs (ps.set i (.sched buf (pid + 1)) ++ [.child buf]) bufs
  | child {ps bufs i buf} (h : ps[i]? = some (.child buf)) :
      Next N ps bufs (ps.set i (.sched buf 0)) bufs
  | sched {ps bufs i buf pid} (h : ps[i]? = some (.sched buf pid)) :
      Next N ps bufs (ps.set i (.round N (buf ++ [pid]))) bufs
  | write {ps bufs i buf} (h : ps[i]? = some (.writing buf)) :
      Next N ps bufs (ps.set i (.done buf)) (bufs ++ [buf])

/-! ### The account -/

/-- The rounds in which the process was the child. -/
def pattern (buf : List ℕ) : List Bool := buf.map fun pid => decide (pid = 0)

/-- The tuples of `N` bits that begin with `bs`. -/
def extensions (N : ℕ) (bs : List Bool) : List (List Bool) :=
  (bitTuples (N - bs.length)).map (bs ++ ·)

namespace Proc

/-- The patterns of the buffers that the process and its descendants will write. -/
def patterns (N : ℕ) : Proc → List (List Bool)
  | start => bitTuples N
  | forking buf => extensions N (pattern buf)
  | child buf => extensions N (pattern buf ++ [true])
  | sched buf pid => extensions N (pattern buf ++ [decide (pid = 0)])
  | writing buf => [pattern buf]
  | done _ => []

/-- The steps that the process and its descendants will make. -/
def steps (N : ℕ) : Proc → ℕ
  | start => 5 * 2 ^ N - 3
  | forking buf => 5 * 2 ^ (N - buf.length) - 4
  | child buf => 5 * 2 ^ (N - (buf.length + 1)) - 2
  | sched buf _ => 5 * 2 ^ (N - (buf.length + 1)) - 3
  | writing _ => 1
  | done _ => 0

/-- There are as many lines in the buffer as rounds are over. -/
def Valid (N : ℕ) : Proc → Prop
  | start => True
  | forking buf => buf.length < N
  | child buf => buf.length < N
  | sched buf _ => buf.length < N
  | writing buf => buf.length = N
  | done buf => buf.length = N

end Proc

theorem length_pattern (buf : List ℕ) : (pattern buf).length = buf.length := List.length_map _

theorem pattern_append (buf : List ℕ) (pid : ℕ) :
    pattern (buf ++ [pid]) = pattern buf ++ [decide (pid = 0)] := List.map_append

theorem extensions_split {N : ℕ} {bs : List Bool} (h : bs.length < N) :
    extensions N bs = extensions N (bs ++ [false]) ++ extensions N (bs ++ [true]) := by
  obtain ⟨k, hk⟩ : ∃ k, N - bs.length = k + 1 := ⟨N - bs.length - 1, by omega⟩
  have hlen : ∀ b : Bool, N - (bs ++ [b]).length = k := by
    intro b
    rw [List.length_append, List.length_singleton]
    omega
  simp only [extensions, hlen, hk, bitTuples, List.map_append, List.map_map]
  congr 1 <;> exact List.map_congr_left fun _ _ => by simp

theorem extensions_of_length {N : ℕ} {bs : List Bool} (h : bs.length = N) :
    extensions N bs = [bs] := by
  rw [extensions, h, Nat.sub_self, bitTuples, List.map_singleton, List.append_nil]

theorem extensions_nil (N : ℕ) : extensions N [] = bitTuples N := by
  rw [extensions, List.length_nil, Nat.sub_zero]
  exact List.map_id' _

section Round

variable {N : ℕ} {buf : List ℕ} (h : buf.length ≤ N)
include h

theorem patterns_round : (Proc.round N buf).patterns N = extensions N (pattern buf) := by
  unfold Proc.round
  split_ifs with hlt
  · rfl
  · rw [extensions_of_length (by rw [length_pattern]; omega)]
    rfl

theorem steps_round : (Proc.round N buf).steps N = 5 * 2 ^ (N - buf.length) - 4 := by
  unfold Proc.round
  split_ifs with hlt
  · rfl
  · rw [show N - buf.length = 0 by omega]
    rfl

theorem valid_round : (Proc.round N buf).Valid N := by
  unfold Proc.round
  split_ifs with hlt
  · exact hlt
  · exact le_antisymm h (not_lt.mp hlt)

end Round

/-- What is written and what will be written, and the number of steps that were made and that will
be made, make up the whole. -/
structure Account (N : ℕ) (ps : List Proc) (bufs : List (List ℕ)) (n : ℕ) : Prop where
  valid : ∀ p ∈ ps, p.Valid N
  patterns : (bufs.map pattern ++ ps.flatMap (Proc.patterns N)).Perm (bitTuples N)
  steps : n + (ps.map (Proc.steps N)).sum = 5 * 2 ^ N - 3

theorem Account.start (N : ℕ) : Account N [.start] [] 0 := by
  refine ⟨?_, ?_, ?_⟩
  · rintro p hp
    rw [List.mem_singleton.mp hp]
    trivial
  · rw [List.flatMap_singleton]
    exact List.Perm.refl _
  · rw [List.map_singleton, List.sum_singleton, Nat.zero_add]
    rfl

/-- A step of one process, with the processes it adds and the buffers it writes. -/
theorem Account.set {N : ℕ} {ps : List Proc} {bufs : List (List ℕ)} {n : ℕ}
    (h : Account N ps bufs n) {i : ℕ} {p : Proc} (hp : ps[i]? = some p) (p' : Proc)
    (qs : List Proc) (out : List (List ℕ)) (hvalid : ∀ q ∈ p' :: qs, q.Valid N)
    (hpatterns : (out.map pattern ++ (p' :: qs).flatMap (Proc.patterns N)).Perm (p.patterns N))
    (hsteps : 1 + ((p' :: qs).map (Proc.steps N)).sum = p.steps N) :
    Account N (ps.set i p' ++ qs) (bufs ++ out) (n + 1) := by
  obtain ⟨l, r, rfl, hset⟩ : ∃ l r, ps = l ++ p :: r ∧ ps.set i p' = l ++ p' :: r := by
    obtain ⟨hlt, rfl⟩ := List.getElem?_eq_some_iff.mp hp
    refine ⟨ps.take i, ps.drop (i + 1), ?_, List.set_eq_take_append_cons_drop.trans (if_pos hlt)⟩
    rw [List.cons_getElem_drop_succ, List.take_append_drop]
  rw [hset]
  refine ⟨fun q hq => ?_, ?_, ?_⟩
  · rw [List.append_assoc, List.cons_append, List.mem_append, List.mem_cons, List.mem_append] at hq
    rcases hq with hq | rfl | hq | hq
    · exact h.valid q (List.mem_append_left _ hq)
    · exact hvalid q List.mem_cons_self
    · exact h.valid q (List.mem_append_right _ (List.mem_cons_of_mem _ hq))
    · exact hvalid q (List.mem_cons_of_mem _ hq)
  · -- the new processes and buffers take the place of the old process
    refine List.Perm.trans ?_ h.patterns
    rw [List.perm_iff_count]
    intro bs
    have hcount := hpatterns.count_eq bs
    simp only [List.map_append, List.flatMap_append, List.flatMap_cons, List.count_append]
      at hcount ⊢
    omega
  · have hsum := h.steps
    simp only [List.map_append, List.map_cons, List.sum_append, List.sum_cons] at hsum hsteps ⊢
    omega

/-- **One step** keeps the account. -/
theorem Next.account {N : ℕ} {ps ps' : List Proc} {bufs bufs' : List (List ℕ)} {n : ℕ}
    (hnext : Next N ps bufs ps' bufs') (h : Account N ps bufs n) : Account N ps' bufs' (n + 1) := by
  have hpow : ∀ k, 0 < 2 ^ k := fun k => Nat.two_pow_pos k
  cases hnext with
  | start hp =>
    have hacc := h.set hp (.round N []) [] [] ?_ ?_ ?_
    · rwa [List.append_nil, List.append_nil] at hacc
    · rintro q hq
      rw [List.mem_singleton.mp hq]
      exact valid_round (Nat.zero_le N)
    · rw [List.flatMap_singleton, patterns_round (Nat.zero_le N)]
      exact List.Perm.of_eq (extensions_nil N)
    · rw [List.map_singleton, List.sum_singleton, steps_round (Nat.zero_le N)]
      have := hpow N
      show 1 + (5 * 2 ^ N - 4) = 5 * 2 ^ N - 3
      omega
  | @fork _ buf hp pid =>
    have hlt : buf.length < N := h.valid _ (List.mem_of_getElem? hp)
    have hacc := h.set hp (.sched buf (pid + 1)) [.child buf] [] ?_ ?_ ?_
    · rwa [List.append_nil] at hacc
    · rintro q hq
      rcases List.mem_pair.mp hq with rfl | rfl
      · exact hlt
      · exact hlt
    · -- the parent goes on with a `1`, the child with a `0`
      have hsplit := extensions_split ((length_pattern buf).trans_lt hlt)
      refine List.Perm.of_eq (Eq.trans ?_ hsplit.symm)
      rw [List.flatMap_cons, List.flatMap_singleton]
      rfl
    · obtain ⟨k, hk⟩ : ∃ k, N - buf.length = k + 1 := ⟨N - buf.length - 1, by omega⟩
      have hk' : N - (buf.length + 1) = k := by omega
      have := hpow k
      show 1 + ((5 * 2 ^ (N - (buf.length + 1)) - 3) +
        ((5 * 2 ^ (N - (buf.length + 1)) - 2) + 0)) = 5 * 2 ^ (N - buf.length) - 4
      rw [hk, hk', Nat.pow_succ]
      omega
  | @child _ buf hp =>
    have hlt : buf.length < N := h.valid _ (List.mem_of_getElem? hp)
    have hacc := h.set hp (.sched buf 0) [] [] ?_ ?_ ?_
    · rwa [List.append_nil, List.append_nil] at hacc
    · rintro q hq
      rw [List.mem_singleton.mp hq]
      exact hlt
    · rw [List.flatMap_singleton]
      exact List.Perm.refl _
    · have := hpow (N - (buf.length + 1))
      show 1 + ((5 * 2 ^ (N - (buf.length + 1)) - 3) + 0) = 5 * 2 ^ (N - (buf.length + 1)) - 2
      omega
  | @sched _ buf pid hp =>
    have hlt : buf.length < N := h.valid _ (List.mem_of_getElem? hp)
    have hlen : (buf ++ [pid]).length = buf.length + 1 := List.length_append
    have hle : (buf ++ [pid]).length ≤ N := hlen.trans_le hlt
    have hacc := h.set hp (.round N (buf ++ [pid])) [] [] ?_ ?_ ?_
    · rwa [List.append_nil, List.append_nil] at hacc
    · rintro q hq
      rw [List.mem_singleton.mp hq]
      exact valid_round hle
    · rw [List.flatMap_singleton, patterns_round hle, pattern_append]
      exact List.Perm.refl _
    · rw [List.map_singleton, List.sum_singleton, steps_round hle, hlen]
      have := hpow (N - (buf.length + 1))
      show 1 + (5 * 2 ^ (N - (buf.length + 1)) - 4) = 5 * 2 ^ (N - (buf.length + 1)) - 3
      omega
  | @write _ buf hp =>
    have hlen : buf.length = N := h.valid _ (List.mem_of_getElem? hp)
    have hacc := h.set hp (.done buf) [] [buf] ?_ ?_ ?_
    · rwa [List.append_nil] at hacc
    · rintro q hq
      rw [List.mem_singleton.mp hq]
      exact hlen
    · exact List.Perm.refl _
    · rfl

/-! ### The states -/

/-- The threads and the heaps are those of the processes; the children that have not run yet are
new. -/
structure Holds (ref : Reference Value Func Frame Heap) (ps : List Proc) : Prop where
  threads : ∀ i : ℕ, ref.threads[i]? = (ps[i]?).map fun p => ⟨p.context, i⟩
  heaps : ref.heaps = ps.map Proc.heap
  newfork : ∀ i ∈ ref.newfork, ∃ buf, ps[i]? = some (.child buf)
  new : ∀ i buf, i ≠ ref.current → ps[i]? = some (.child buf) → i ∈ ref.newfork

/-- A state between two steps, with the buffers that have been written. -/
structure Shows (ref : Reference Value Func Frame Heap) (ps : List Proc)
    (bufs : List (List ℕ)) : Prop extends Holds ref ps where
  resumed : ∀ buf, ps[ref.current]? ≠ some (.child buf)
  stdout : ref.devices.stdout = bufs.flatMap text

/-- The process is at a system call it has made itself, or has returned. -/
def Proc.Ran : Proc → Prop
  | start => False
  | child _ => False
  | _ => True

/-- What a process has done then. -/
def Proc.outcome (p : Proc) : Result :=
  match p.context with
  | .start _ => .raises
  | .suspended frame call => .yields frame call p.heap
  | .finished => .returns p.heap

theorem forRounds_eq (N : ℕ) (buf : List ℕ) :
    forRounds N buf.length (text buf) = (Proc.round N buf).outcome := by
  unfold forRounds Proc.round
  split_ifs <;> rfl

theorem ran_round (N : ℕ) (buf : List ℕ) : (Proc.round N buf).Ran := by
  unfold Proc.round
  split_ifs <;> trivial

theorem text_append (buf : List ℕ) (pid : ℕ) :
    text (buf ++ [pid]) = text buf ++ line (.int pid) := by
  unfold text
  rw [List.flatMap_append, List.flatMap_singleton]

theorem resume_sched (N : ℕ) (buf : List ℕ) (pid : ℕ) (v : Value) :
    resume N (.sched buf.length (.int pid)) v (some (text buf)) =
      (Proc.round N (buf ++ [pid])).outcome := by
  rw [← forRounds_eq, text_append, List.length_append]
  rfl

namespace Holds

variable {N : ℕ} {ref : Reference Value Func Frame Heap} {ps : List Proc} {bufs : List (List ℕ)}
  (h : Holds ref ps)
include h

theorem length_threads : ref.threads.length = ps.length := by
  have := h.threads
  refine Nat.le_antisymm ?_ ?_
  · have hnone := this ps.length
    rw [List.getElem?_eq_none (le_refl _)] at hnone
    exact List.getElem?_eq_none_iff.mp hnone
  · have hnone := this ref.threads.length
    rw [List.getElem?_eq_none (le_refl _)] at hnone
    exact List.getElem?_eq_none_iff.mp (Option.map_eq_none_iff.mp hnone.symm)

theorem getElem?_heaps {i : ℕ} {p : Proc} (hp : ps[i]? = some p) :
    ref.heaps[i]? = some p.heap := by
  rw [h.heaps, List.getElem?_map, hp]
  rfl

theorem getElem?_threads {i : ℕ} {p : Proc} (hp : ps[i]? = some p) :
    ref.threads[i]? = some ⟨p.context, i⟩ := by
  rw [h.threads, hp]
  rfl

theorem getElem?_contexts (i : ℕ) : ref.contexts[i]? = (ps[i]?).map Proc.context := by
  rw [Reference.getElem?_contexts, h.threads, Option.map_map]
  rfl

/-- The current process runs up to its next system call. -/
theorem send {p p' : Proc} (hp : ps[ref.current]? = some p) (hnew : ref.current ∉ ref.newfork)
    {frame : Frame} (hframe : p.context.frame? = some frame) {res : Value}
    (hres : p = .start → res = .none) (hout : resume N frame res p.heap = p'.outcome)
    (hran : p'.Ran) (hstdout : ref.devices.stdout = bufs.flatMap text) :
    ∃ ref' call, ref.send (forkBuf N) res = some (ref', call) ∧
      Shows ref' (ps.set ref.current p') bufs := by
  -- `send` runs the frame on the heap of the process
  have hsend : ref.send (forkBuf N) res =
      ref.resume (forkBuf N) ⟨p.context, ref.current⟩ frame res := by
    unfold Reference.send
    rw [h.getElem?_threads hp]
    cases p with
    | start =>
      cases hframe
      exact if_pos (hres rfl)
    | done buf => cases hframe
    | _ =>
      cases hframe
      rfl
  -- and the new context is that of the new phase
  have hresume : ∃ call, ref.resume (forkBuf N) ⟨p.context, ref.current⟩ frame res =
      some (ref.setContext ⟨p.context, ref.current⟩ p'.context p'.heap, call) := by
    have hout' : (forkBuf N).resume frame res p.heap = p'.outcome := hout
    unfold Reference.resume
    rw [h.getElem?_heaps hp, Option.bind_eq_bind, Option.bind_some, hout']
    cases p' with
    | start => exact hran.elim
    | _ => exact ⟨_, rfl⟩
  obtain ⟨call, hresume⟩ := hresume
  have hlt : ref.current < ps.length := (List.getElem?_eq_some_iff.mp hp).1
  refine ⟨_, call, hsend.trans hresume,
    ⟨⟨fun i => ?_, ?_, fun i hi => ?_, fun i buf hi hb => ?_⟩, fun buf hb => ?_, hstdout⟩⟩
  · show (ref.threads.set ref.current ⟨p'.context, ref.current⟩)[i]? = _
    rw [List.getElem?_set, List.getElem?_set, h.threads, h.length_threads]
    split_ifs with heq
    · rw [heq]
      rfl
    · rfl
  · show ref.heaps.set ref.current p'.heap = _
    rw [h.heaps, List.map_set]
  · have hne : ref.current ≠ i := fun heq => hnew (heq ▸ hi)
    rw [List.getElem?_set_ne hne]
    exact h.newfork i hi
  · have hne : ref.current ≠ i := Ne.symm hi
    rw [List.getElem?_set_ne hne] at hb
    exact h.new i buf hi hb
  · have hp' : (ps.set ref.current p')[ref.current]? = some (.child buf) := hb
    rw [List.getElem?_set_self hlt] at hp'
    rw [Option.some.inj hp'] at hran
    exact hran

/-- A fork adds a child that has not run. -/
theorem fork {buf : List ℕ} (hp : ps[ref.current]? = some (.forking buf)) :
    ∃ ref' : Reference Value Func Frame Heap,
      ref.fork = some (ref', .int ((1000 + ps.length + 1 : ℕ))) ∧ Holds ref' (ps ++ [.child buf]) ∧
      ref'.current = ref.current ∧ ref'.devices = ref.devices ∧
      ∀ i ∈ ref'.newfork, i ∈ ref.newfork ∨ i = ps.length := by
  have hfork := Reference.fork_of_some (h.getElem?_threads hp) (h.getElem?_heaps hp)
  have hlen : ref.heaps.length = ps.length := by rw [h.heaps, List.length_map]
  rw [h.length_threads, hlen] at hfork
  refine ⟨_, hfork, ⟨fun i => ?_, ?_, fun i hi => ?_, fun i b hi hb => ?_⟩, rfl, rfl,
    fun i hi => (Finset.mem_insert.mp hi).symm⟩
  · show (ref.threads ++ [_])[i]? = _
    rw [List.getElem?_append, List.getElem?_append, h.threads, h.length_threads]
    split_ifs with hlt
    · rfl
    · rcases Nat.eq_or_lt_of_le (not_lt.mp hlt) with rfl | hgt
      · rw [Nat.sub_self]
        rfl
      · obtain ⟨k, hk⟩ : ∃ k, i - ps.length = k + 1 := ⟨i - ps.length - 1, by omega⟩
        rw [hk]
        rfl
  · show ref.heaps ++ [_] = _
    rw [h.heaps, List.map_append]
    rfl
  · rcases Finset.mem_insert.mp hi with rfl | hi
    · exact ⟨buf, List.getElem?_concat_length⟩
    · obtain ⟨b, hb⟩ := h.newfork i hi
      exact ⟨b, by rw [List.getElem?_append_left (List.getElem?_eq_some_iff.mp hb).1, hb]⟩
  · rw [List.getElem?_append] at hb
    split_ifs at hb with hlt
    · exact Finset.mem_insert_of_mem (h.new i b hi hb)
    · have hlt' := (List.getElem?_eq_some_iff.mp hb).1
      rw [List.length_singleton] at hlt'
      exact Finset.mem_insert.mpr (Or.inl (by omega))

/-- A switch takes the mark of a new child away. -/
theorem switchTo (hcur : ∀ buf, ps[ref.current]? ≠ some (.child buf)) (tid : ℕ) :
    Holds { ref with current := tid, newfork := ref.newfork.erase tid } ps := by
  refine ⟨h.threads, h.heaps, fun i hi => h.newfork i (Finset.mem_of_mem_erase hi),
    fun i buf hi hb => Finset.mem_erase.mpr ⟨hi, h.new i buf ?_ hb⟩⟩
  rintro rfl
  exact hcur buf hb

theorem exists_proc {i : ℕ} {g : Gen Value Func Frame} (hg : ref.contexts[i]? = some g) :
    ∃ p, ps[i]? = some p ∧ p.context = g := by
  rw [h.getElem?_contexts] at hg
  exact Option.map_eq_some_iff.mp hg

theorem eq_child {i : ℕ} {q : Proc} (hq : ps[i]? = some q) (hi : i ∈ ref.newfork) :
    ∃ buf, q = .child buf := by
  obtain ⟨buf, hbuf⟩ := h.newfork i hi
  exact ⟨buf, Option.some.inj (hq.symm.trans hbuf)⟩

/-- At a switch, a live process is at its start, a new child or at a `sys_sched`. -/
theorem switch_cases (hstand : Standing ref.contexts ref.current ref.newfork) {p : Proc}
    (hp : ps[ref.current]? = some p)
    (hpc : p.context = .finished ∨ ∃ frame, p.context = .suspended frame .sched) {tid : ℕ}
    {q : Proc} (hq : ps[tid]? = some q) (hl : q.context.Live) :
    q = .start ∨ (∃ buf, q = .child buf) ∨ ∃ buf pid, q = .sched buf pid := by
  by_cases htid : tid = ref.current
  · subst htid
    obtain rfl := Option.some.inj (hp.symm.trans hq)
    rcases hpc with hpc | ⟨frame, hpc⟩
    · exact absurd hpc hl
    · cases p with
      | sched buf pid => exact Or.inr (Or.inr ⟨buf, pid, rfl⟩)
      | _ => cases hpc
  · have hg : ref.contexts[tid]? = some q.context := by
      rw [h.getElem?_contexts, hq]
      rfl
    rcases hstand.other tid q.context htid hg hl with ⟨f, hf, -⟩ | ⟨f, hf, -⟩ | ⟨f, hf, hmem⟩
    · cases q with
      | start => exact Or.inl rfl
      | _ => cases hf
    · cases q with
      | sched buf pid => exact Or.inr (Or.inr ⟨buf, pid, rfl⟩)
      | _ => cases hf
    · exact Or.inr (Or.inl (h.eq_child hq hmem))

end Holds

namespace Shows

variable {N : ℕ} {ref : Reference Value Func Frame Heap} {ps : List Proc} {bufs : List (List ℕ)}
  (h : Shows ref ps bufs)
include h

/-- The callback of a switch, and what the process does that it goes to. -/
theorem switch (hstand : Standing ref.contexts ref.current ref.newfork)
    {p : Proc} (hp : ps[ref.current]? = some p)
    (hpc : p.context = .finished ∨ ∃ frame, p.context = .suspended frame .sched) {tid : ℕ}
    {g : Gen Value Func Frame} (hg : ref.contexts[tid]? = some g) (hl : g.Live) :
    ∃ ref₁ res ref' call ps', ref.switchTo tid = some (ref₁, res) ∧
      ref₁.send (forkBuf N) res = some (ref', call) ∧ Next N ps bufs ps' bufs ∧
      Shows ref' ps' bufs := by
  obtain ⟨q, hq, rfl⟩ := h.exists_proc hg
  have hholds := h.switchTo h.resumed tid
  have hnot : tid ∉ ref.newfork.erase tid := Finset.notMem_erase tid ref.newfork
  have hswitch := ref.switchTo_of_some (h.getElem?_threads hq)
  obtain rfl | ⟨buf, rfl⟩ | ⟨buf, pid, rfl⟩ := h.switch_cases hstand hp hpc hq hl
  · have hmem : tid ∉ ref.newfork := fun hmem => by
      obtain ⟨buf, hbuf⟩ := h.eq_child hq hmem
      cases hbuf
    rw [if_neg hmem] at hswitch
    obtain ⟨ref', call, hsend, hshows⟩ := hholds.send hq hnot rfl (fun _ => rfl)
      (forRounds_eq N []) (ran_round N []) h.stdout
    exact ⟨_, _, ref', call, _, hswitch, hsend, .start hq, hshows⟩
  · -- the child gets its `0`
    have hmem : tid ∈ ref.newfork := by
      refine h.new tid buf ?_ hq
      rintro rfl
      exact h.resumed buf hq
    rw [if_pos hmem] at hswitch
    have hout : resume N (.fork buf.length) (.int 0) (some (text buf)) =
      (Proc.sched buf 0).outcome := rfl
    obtain ⟨ref', call, hsend, hshows⟩ := hholds.send hq hnot rfl nofun hout trivial h.stdout
    exact ⟨_, _, ref', call, _, hswitch, hsend, .child hq, hshows⟩
  · obtain ⟨ref', call, hsend, hshows⟩ := hholds.send hq hnot rfl nofun
      (resume_sched N buf pid _) (ran_round N _) h.stdout
    exact ⟨_, _, ref', call, _, hswitch, hsend, .sched hq, hshows⟩

/-- The callback of a fork, and what the parent does then. -/
theorem fork (hstand : Standing ref.contexts ref.current ref.newfork) {buf : List ℕ}
    (hp : ps[ref.current]? = some (.forking buf)) :
    ∃ ref₁ res ref' call ps', ref.fork = some (ref₁, res) ∧
      ref₁.send (forkBuf N) res = some (ref', call) ∧ Next N ps bufs ps' bufs ∧
      Shows ref' ps' bufs := by
  obtain ⟨ref₁, hfork, hholds, hcur, hdev, hmem⟩ := h.toHolds.fork hp
  have hlt : ref.current < ps.length := (List.getElem?_eq_some_iff.mp hp).1
  have hp₁ : (ps ++ [.child buf])[ref₁.current]? = some (.forking buf) := by
    rw [hcur, List.getElem?_append_left hlt]
    exact hp
  have hnew : ref₁.current ∉ ref₁.newfork := by
    rw [hcur]
    intro hnew
    exact (hmem _ hnew).elim hstand.current_not_new (Nat.ne_of_lt hlt)
  have hout : resume N (.fork buf.length) (.int (1000 + ps.length + 1 : ℕ)) (some (text buf)) =
    (Proc.sched buf (1000 + ps.length + 1)).outcome := rfl
  obtain ⟨ref', call, hsend, hshows⟩ := hholds.send hp₁ hnew rfl nofun hout trivial
    (hdev ▸ h.stdout)
  rw [hcur, List.set_append_left _ _ hlt] at hshows
  exact ⟨_, _, ref', call, _, hfork, hsend, .fork hp _, hshows⟩

/-- The callback of the write, and the end of the process. -/
theorem write (hstand : Standing ref.contexts ref.current ref.newfork) {buf : List ℕ}
    (hp : ps[ref.current]? = some (.writing buf)) :
    ∃ ref₁ res ref' call ps',
      ref.perform (forkBuf N) (.dev (.write [.str (text buf)])) = some (ref₁, res) ∧
      ref₁.send (forkBuf N) res = some (ref', call) ∧ Next N ps bufs ps' (bufs ++ [buf]) ∧
      Shows ref' ps' (bufs ++ [buf]) := by
  have hholds : Holds { ref with
      devices := (DevAction.run ref.devices (.write [.str (text buf)])).1 } ps :=
    ⟨h.threads, h.heaps, h.newfork, h.new⟩
  have hout : resume N .write .none (some (text buf)) = (Proc.done buf).outcome := rfl
  have hstdout : ref.devices.stdout ++ joinArgs [Value.str (text buf)] =
      (bufs ++ [buf]).flatMap text := by
    rw [List.flatMap_append, List.flatMap_singleton, h.stdout]
    exact congrArg _ (List.append_nil _)
  obtain ⟨ref', call, hsend, hshows⟩ := hholds.send hp hstand.current_not_new rfl nofun hout
    trivial hstdout
  exact ⟨_, _, ref', call, _, rfl, hsend, .write hp, hshows⟩

/-- **One step** of the reference: it succeeds with every choice that is offered. -/
theorem step (hinv : ref.Inv (forkBuf N)) {choice : Label} {a : Action Value Func Unit}
    (ha : ref.choices.get? choice = some a) :
    ∃ ref' ps' bufs', ref.step (forkBuf N) choice = some ref' ∧ Next N ps bufs ps' bufs' ∧
      Shows ref' ps' bufs' := by
  obtain ⟨g, hg, hfits⟩ := hinv.fits (forkBuf N) ha
  obtain ⟨p, hp, hpc⟩ := h.exists_proc hg
  have hnew := hinv.standing.current_not_new
  obtain ⟨ref₁, res, ref', call, ps', bufs', hperform, hsend, hnext, hshows⟩ :
      ∃ ref₁ res ref' call ps' bufs', ref.perform (forkBuf N) a = some (ref₁, res) ∧
        ref₁.send (forkBuf N) res = some (ref', call) ∧ Next N ps bufs ps' bufs' ∧
        Shows ref' ps' bufs' := by
    cases hfits with
    | init frame =>
      cases p with
      | start =>
        obtain ⟨ref', call, hsend, hshows⟩ := h.send hp hnew rfl (fun _ => rfl)
          (forRounds_eq N []) (ran_round N []) h.stdout
        exact ⟨_, _, ref', call, _, bufs, rfl, hsend, .start hp, hshows⟩
      | _ => cases hpc
    | spawn frame func args => exact func.elim
    | fork frame =>
      cases p with
      | forking buf =>
        obtain ⟨ref₁, res, ref', call, ps', hmove⟩ := h.fork hinv.standing hp
        exact ⟨ref₁, res, ref', call, ps', bufs, hmove⟩
      | child buf => exact absurd hp (h.resumed buf)
      | _ => cases hpc
    | sched frame hg' hl =>
      obtain ⟨ref₁, res, ref', call, ps', hmove⟩ :=
        h.switch hinv.standing hp (Or.inr ⟨frame, hpc⟩) hg' hl
      exact ⟨ref₁, res, ref', call, ps', bufs, hmove⟩
    | finished hg' hl =>
      obtain ⟨ref₁, res, ref', call, ps', hmove⟩ := h.switch hinv.standing hp (Or.inl hpc) hg' hl
      exact ⟨ref₁, res, ref', call, ps', bufs, hmove⟩
    | dev frame ha' =>
      cases p with
      | writing buf =>
        cases hpc
        obtain rfl := Dict.eq_of_get?_singleton ha'
        obtain ⟨ref₁, res, ref', call, ps', hmove⟩ := h.write hinv.standing hp
        exact ⟨ref₁, res, ref', call, ps', _, hmove⟩
      | _ => cases hpc
  have hchoose : ref.choose (forkBuf N) choice = some (ref₁, res) := by
    rw [hinv.choose_eq, ha]
    exact hperform
  have hadv : ref.advance (forkBuf N) choice = some (ref', call) := by
    unfold Reference.advance
    rw [hchoose]
    exact hsend
  refine ⟨{ ref' with choices := ref'.syscall call }, ps', bufs', ?_, hnext,
    ⟨⟨hshows.threads, hshows.heaps, hshows.newfork, hshows.new⟩, hshows.resumed, hshows.stdout⟩⟩
  unfold Reference.step
  rw [hadv]
  rfl

end Shows

/-! ### Runs -/

/-- **Every run** of the reference. -/
theorem shows_run (N : ℕ) (trace : List Label) : ∀ {ref},
    Reference.run (forkBuf N) trace = some ref →
      ∃ ps bufs, Shows ref ps bufs ∧ Account N ps bufs trace.length := by
  induction trace using List.reverseRecOn with
  | nil =>
    intro ref h
    obtain rfl := Option.some.inj h
    refine ⟨[.start], [], ⟨⟨fun i => ?_, rfl, fun i hi => ?_, fun i buf _ hb => ?_⟩,
      fun buf hb => ?_, rfl⟩, Account.start N⟩
    · cases i with
      | zero => rfl
      | succ i => rfl
    · exact absurd hi (Finset.notMem_empty i)
    · cases List.mem_singleton.mp (List.mem_of_getElem? hb)
    · cases Option.some.inj hb
  | append_singleton trace choice ih =>
    intro ref' h
    rw [Reference.run_concat] at h
    obtain ⟨ref, href, hstep⟩ := Option.bind_eq_some_iff.mp h
    obtain ⟨ps, bufs, hshows, hacc⟩ := ih href
    have hinv := Reference.inv_run (forkBuf N) trace href
    obtain ⟨r, hadv, -⟩ := Option.bind_eq_some_iff.mp hstep
    obtain ⟨r', hchoose, -⟩ := Option.bind_eq_some_iff.mp hadv
    obtain ⟨a, -, ha, -⟩ := hinv.choose_cases (forkBuf N) hchoose
    obtain ⟨ref'', ps', bufs', hstep', hnext, hshows'⟩ := hshows.step hinv ha
    obtain rfl := Option.some.inj (hstep.symm.trans hstep')
    refine ⟨ps', bufs', hshows', ?_⟩
    rw [List.length_append, List.length_singleton]
    exact hnext.account hacc

theorem Account.of_finished {N : ℕ} {ps : List Proc} {bufs : List (List ℕ)} {n : ℕ}
    (h : Account N ps bufs n) (hps : ∀ p ∈ ps, ∃ buf, p = .done buf) :
    n = 5 * 2 ^ N - 3 ∧ (bufs.map pattern).Perm (bitTuples N) := by
  have hpatterns : ps.flatMap (Proc.patterns N) = [] := by
    refine List.flatMap_eq_nil_iff.mpr fun p hp => ?_
    obtain ⟨buf, rfl⟩ := hps p hp
    rfl
  have hsteps : (ps.map (Proc.steps N)).sum = 0 := by
    refine List.sum_eq_zero fun n hn => ?_
    obtain ⟨p, hp, rfl⟩ := List.mem_map.mp hn
    obtain ⟨buf, rfl⟩ := hps p hp
    rfl
  refine ⟨?_, ?_⟩
  · rw [← h.steps, hsteps, Nat.add_zero]
  · rw [← List.append_nil (bufs.map pattern), ← hpatterns]
    exact h.patterns

/-- **What is written**: in every run the output consists of whole buffers, of which no two have
their zeros in the same rounds.  A run has at most `5 * 2 ^ N - 3` steps; when all processes have
returned it has so many, and there is a buffer for each set of rounds. -/
theorem stdout_run (N : ℕ) (trace : List Label) (k : ℕ) (w w' : World Heap)
    {os : OperatingSystem Value Func Frame}
    (hrun : OperatingSystem.run (forkBuf N) (trace.length + k) [] trace w = (.ok os, w')) :
    ∃ bufs : List (List ℕ), os.devices.stdout = bufs.flatMap text ∧
      (bufs.map pattern).Subperm (bitTuples N) ∧ trace.length ≤ 5 * 2 ^ N - 3 ∧
      ((∀ g ∈ os.contexts, ¬g.Live) →
        trace.length = 5 * 2 ^ N - 3 ∧ (bufs.map pattern).Perm (bitTuples N)) := by
  have hsim := runSim (forkBuf N) (trace.length + k) trace (Nat.le_add_right ..) [] rfl w
  obtain ⟨ref, href, -, -, ρ, hsim⟩ := hsim.exists_some hrun
  obtain ⟨ps, bufs, hshows, hacc⟩ := shows_run N trace href
  refine ⟨bufs, ?_, ?_, ?_, fun hfin => hacc.of_finished fun p hp => ?_⟩
  · rw [hsim.devices]
    exact hshows.stdout
  · exact (List.sublist_append_left _ _).subperm.trans hacc.patterns.subperm
  · have := hacc.steps
    omega
  · obtain ⟨i, hi⟩ := List.mem_iff_getElem?.mp hp
    have hctx : os.contexts[i]? = some p.context := by
      rw [hsim.sameState.contexts, hshows.getElem?_contexts, hi]
      rfl
    have hnot := hfin _ (List.mem_of_getElem? hctx)
    cases p with
    | done buf => exact ⟨buf, rfl⟩
    | _ => exact absurd (fun h => by cases h) hnot

/-- The parent writes first. -/
def oneRound : List Label :=
  [.text ['m', 'a', 'i', 'n'], .text ['f', 'o', 'r', 'k'], .text ['t', '1'],
    .text ['w', 'r', 'i', 't', 'e'], .text ['t', '2'], .text ['t', '2'],
    .text ['w', 'r', 'i', 't', 'e']]

/-- It can be executed, and both processes return. -/
theorem run_oneRound :
    ((OperatingSystem.run (forkBuf 1) (oneRound.length + 0) [] oneRound
      ⟨[], 0, []⟩).1.toOption.map fun os => (os.contexts, os.devices.stdout)) =
      some ([.finished, .finished],
        ['\uFE0F', '1', '0', '0', '2', '\n', '\uFE0F', '0', '\n']) := by
  decide +kernel

theorem stdout_run_oneRound : ∃ os w',
    OperatingSystem.run (forkBuf 1) (oneRound.length + 0) [] oneRound ⟨[], 0, []⟩ = (.ok os, w') ∧
      os.devices.stdout = ['\uFE0F', '1', '0', '0', '2', '\n', '\uFE0F', '0', '\n'] ∧
      ∃ bufs : List (List ℕ), os.devices.stdout = bufs.flatMap text ∧
        (bufs.map pattern).Perm (bitTuples 1) := by
  have hrun := run_oneRound
  cases hos : OperatingSystem.run (forkBuf 1) (oneRound.length + 0) [] oneRound ⟨[], 0, []⟩ with
  | mk r w' =>
    rw [hos] at hrun
    cases r with
    | error e => cases hrun
    | ok os =>
      obtain ⟨hctx, hout⟩ := Prod.mk.inj (Option.some.inj hrun)
      obtain ⟨bufs, hbufs, -, -, hfin⟩ := stdout_run 1 oneRound 0 ⟨[], 0, []⟩ w' hos
      refine ⟨os, w', rfl, hout, bufs, hbufs, (hfin fun g hg => ?_).2⟩
      have hctx : os.contexts = [.finished, .finished] := hctx
      rw [hctx] at hg
      rcases List.mem_pair.mp hg with rfl | rfl
      · exact fun hl => hl rfl
      · exact fun hl => hl rfl

/-- No process makes a choice from nothing. -/
theorem Holds.not_choosesNothing {ref : Reference Value Func Frame Heap} {ps : List Proc}
    (h : Holds ref ps) : ¬ChoosesNothing ref.contexts ref.current := by
  rintro ⟨frame, hframe⟩
  obtain ⟨p, -, hp⟩ := h.exists_proc hframe
  cases p <;> cases hp

/-- **No run gets stuck**: as long as a process is live there is a choice, and none raises an
exception. -/
theorem run_goes_on (N : ℕ) (trace : List Label) (k : ℕ) (w w' : World Heap)
    {os : OperatingSystem Value Func Frame}
    (hrun : OperatingSystem.run (forkBuf N) (trace.length + k) [] trace w = (.ok os, w')) :
    ∃ table, os.choices = some table ∧
      ((∃ g ∈ os.contexts, g.Live) → table.keys ≠ []) ∧
      ∀ choice ∈ table.keys, ∃ os' w'', OperatingSystem.run (forkBuf N) (trace.length + 1 + k) []
        (trace ++ [choice]) w = (.ok os', w'') := by
  have hsim := runSim (forkBuf N) (trace.length + k) trace (Nat.le_add_right ..) [] rfl w
  obtain ⟨ref, href, -, -, ρ, hsim⟩ := hsim.exists_some hrun
  obtain ⟨ps, bufs, hshows, -⟩ := shows_run N trace href
  have hinv := Reference.inv_run (forkBuf N) trace href
  obtain ⟨table, htable, hforget⟩ := Option.map_eq_some_iff.mp hsim.choices
  have hget : ∀ choice, ref.choices.get? choice = (table.get? choice).map Action.forget := by
    intro choice
    rw [← hforget, Dict.get?_map]
  refine ⟨table, htable, fun hlive hnil => ?_, fun choice hchoice => ?_⟩
  · have hkeys : ref.choices.keys = [] := by rw [← hforget, Dict.keys_map, hnil]
    obtain ⟨g, hg, hl⟩ := hlive
    rw [hsim.sameState.contexts] at hg
    rcases hinv.keys_choices_eq_nil_iff.mp hkeys with hall | hnothing
    · exact hall g hg hl
    · exact hshows.not_choosesNothing hnothing
  · obtain ⟨a, ha⟩ : ∃ a, table.get? choice = some a := by
      refine Option.ne_none_iff_exists'.mp fun hnone => ?_
      exact Dict.get?_eq_none_iff.mp hnone hchoice
    have ha' : ref.choices.get? choice = some a.forget := by
      rw [hget, ha]
      rfl
    obtain ⟨ref', -, -, hstep, -⟩ := hshows.step hinv ha'
    have href' : Reference.run (forkBuf N) (trace ++ [choice]) = some ref' := by
      rw [Reference.run_concat, href]
      exact hstep
    have hsim' := runSim (forkBuf N) (trace.length + 1 + k) (trace ++ [choice])
      (by rw [List.length_append]; exact Nat.le_add_right ..) [] rfl w
    rw [href'] at hsim'
    obtain ⟨os', w'', hok, -⟩ := hsim'.exists_ok
    exact ⟨os', w'', hok⟩

/-- After the fork, the parent or the child goes on. -/
theorem run_goes_on_oneRound : ∃ os w' table,
    OperatingSystem.run (forkBuf 1) 2 [] [.text "main".toList, .text "fork".toList] ⟨[], 0, []⟩ =
        (.ok os, w') ∧
      os.choices = some table ∧ table.keys = [.text "t1".toList, .text "t2".toList] ∧
      ∀ choice ∈ table.keys, ∃ os' w'', OperatingSystem.run (forkBuf 1) 3 []
        [.text "main".toList, .text "fork".toList, choice] ⟨[], 0, []⟩ = (.ok os', w'') := by
  obtain ⟨table, htable, -, hgo⟩ :=
    run_goes_on 1 [.text "main".toList, .text "fork".toList] 0 ⟨[], 0, []⟩ _ rfl
  refine ⟨_, _, table, rfl, htable, ?_, hgo⟩
  rw [← Option.some.inj htable]
  rfl

end Jyyos.Mosaic.ForkBuf
