import Jyyos.Mosaic.Equiv.Solo
import Jyyos.Mosaic.Xv6Log
import Mathlib.Data.List.Range

/-!
# What the crash leaves of the journal

A run of the program goes through a fixed sequence of phases (`Phase.next`), with one branch: at the
crash, any subset of the buffered blocks reaches the disk.  The storage is known in each phase.  In
the end block `i + 1` holds its contents if it survived the crash and `None` otherwise, the head is
empty again and nothing is left in the buffer (`Ends`).  Every run that returns has such an outcome
(`run_ends`), and every subset is the outcome of some run (`exists_run_ends`).
-/

namespace Jyyos.Mosaic.Xv6Log

open Itertools

/-! ### The storage -/

/-- The blocks that are logged in the first `i` rounds. -/
def blocks (i : ℕ) : List (Value × Value) :=
  (List.range i).map fun j => (.int (j + 1), .str (contents j))

/-- The dictionary `log` after `i` rounds. -/
def items (i : ℕ) : List (ℕ × ℕ) := (List.range i).map fun j => (j + 1, j + 1)

/-- The disk with an empty head. -/
def head : Dict Value Value := Dict.empty.union (Dict.empty.set (.int 0) (.dict []))

/-- The disk after a crash that persists the blocks of `bits`. -/
def survived (N : ℕ) (bits : List Bool) : Dict Value Value :=
  head.union (Dict.ofList (compress (Dict.ofList (blocks N)).entries bits))

/-- The disk with the log in its head. -/
def committed (N : ℕ) (bits : List Bool) : Dict Value Value :=
  (survived N bits).union (Dict.empty.set (.int 0) (.dict (items N)))

/-- What is read from the `j`-th block of the log. -/
def content (bits : List Bool) (j : ℕ) : Value :=
  if bits[j]? = some true then .str (contents j) else .none

/-- The blocks that are installed in the first `j` rounds. -/
def installed (bits : List Bool) (j : ℕ) : List (Value × Value) :=
  (List.range j).map fun i => (.int (i + 1), content bits i)

/-- The disk with the blocks installed. -/
def updated (N : ℕ) (bits : List Bool) : Dict Value Value :=
  (committed N bits).union (Dict.ofList (installed bits N))

/-- The disk at the end. -/
def final (N : ℕ) (bits : List Bool) : Dict Value Value :=
  (updated N bits).union (Dict.empty.set (.int 0) (.dict []))

theorem blocks_succ (i : ℕ) : blocks (i + 1) = blocks i ++ [(.int (i + 1), .str (contents i))] := by
  simp [blocks, List.range_succ]

theorem items_succ (i : ℕ) : items (i + 1) = items i ++ [(i + 1, i + 1)] := by
  simp [items, List.range_succ]

theorem installed_succ (bits : List Bool) (j : ℕ) :
    installed bits (j + 1) = installed bits j ++ [(.int (j + 1), content bits j)] := by
  simp [installed, List.range_succ]

theorem ofList_concat (es : List (Value × Value)) (k v : Value) :
    Dict.ofList (es ++ [(k, v)]) = (Dict.ofList es).set k v := by
  unfold Dict.ofList Dict.update
  rw [List.foldl_append]
  rfl

/-- The blocks of the log are allocated in order. -/
theorem freeBlock_items (i : ℕ) : freeBlock (items i) = i + 1 := by
  have hmax : ((items i).map Prod.snd).foldl max 0 = i := by
    induction i with
    | zero => rfl
    | succ i ih =>
      rw [items_succ, List.map_append, List.foldl_append, ih]
      exact Nat.max_eq_right (Nat.le_succ i)
  rw [freeBlock, hmax]

theorem setEntry_items (i : ℕ) : Dict.setEntry (i + 1) (i + 1) (items i) = items (i + 1) := by
  rw [items_succ]
  apply Dict.setEntry_of_not_mem
  simp only [items, List.map_map, List.mem_map, List.mem_range, not_exists, not_and]
  intro j hj heq
  have : j + 1 = i + 1 := heq
  omega

/-! ### Phases -/

/-- Where the program is; `bits` are the blocks that survived the crash. -/
inductive Phase where
  | start
  | clearHead
  | syncHead
  | readHead
  | logBlock (i : ℕ)
  | crash
  | write (bits : List Bool)
  | syncLog (bits : List Bool)
  | commit (bits : List Bool)
  | syncCommit (bits : List Bool)
  | readBlock (bits : List Bool) (j : ℕ)
  | install (bits : List Bool) (j : ℕ)
  | syncInstall (bits : List Bool)
  | resetHead (bits : List Bool)
  | syncEnd (bits : List Bool)
  | done (bits : List Bool)

namespace Phase

variable (N : ℕ)

/-- The phase at the beginning of a round of logging, or behind the last one. -/
def logging (i : ℕ) : Phase := if i < N then logBlock i else crash

/-- The phase at the beginning of a round of installing, or behind the last one. -/
def installing (bits : List Bool) (j : ℕ) : Phase :=
  if j < N then readBlock bits j else syncInstall bits

/-- The phase that follows, apart from the crash. -/
def next : Phase → Phase
  | start => clearHead
  | clearHead => syncHead
  | syncHead => readHead
  | readHead => logging N 0
  | logBlock i => logging N (i + 1)
  | crash => crash
  | write bits => syncLog bits
  | syncLog bits => commit bits
  | commit bits => syncCommit bits
  | syncCommit bits => installing N bits 0
  | readBlock bits j => install bits j
  | install bits j => installing N bits (j + 1)
  | syncInstall bits => resetHead bits
  | resetHead bits => syncEnd bits
  | syncEnd bits => done bits
  | done bits => done bits

/-- The label of the one choice, apart from the crash. -/
def label : Phase → Text
  | start => ['m', 'a', 'i', 'n']
  | clearHead | logBlock _ | commit _ | install _ _ | resetHead _ =>
    ['b', 'w', 'r', 'i', 't', 'e']
  | syncHead | syncLog _ | syncCommit _ | syncInstall _ | syncEnd _ => ['s', 'y', 'n', 'c']
  | readHead | readBlock _ _ => ['b', 'r', 'e', 'a', 'd']
  | write _ => ['w', 'r', 'i', 't', 'e']
  | crash | done _ => []

/-- The frame and the system call of a phase. -/
def context : Phase → Gen Value Func Frame
  | start => .start .main
  | clearHead => .suspended .clearHead (.dev (.bwrite (.int 0) (.dict [])))
  | syncHead => .suspended .syncHead (.dev .sync)
  | readHead => .suspended .readHead (.dev (.bread (.int 0)))
  | logBlock i =>
    .suspended (.logBlock i (items i) (i + 1)) (.dev (.bwrite (.int (i + 1)) (.str (contents i))))
  | crash => .suspended (.crash (.dict (items N))) (.dev .crash)
  | write _ => .suspended (.write (.dict (items N))) (.dev (.write [.none]))
  | syncLog _ => .suspended (.syncLog (.dict (items N))) (.dev .sync)
  | commit _ =>
    .suspended (.commit (.dict (items N))) (.dev (.bwrite (.int 0) (.dict (items N))))
  | syncCommit _ => .suspended (.syncCommit (.dict (items N))) (.dev .sync)
  | readBlock _ j =>
    .suspended (.readBlock (j + 1) ((items N).drop (j + 1))) (.dev (.bread (.int (j + 1))))
  | install bits j =>
    .suspended (.install ((items N).drop (j + 1))) (.dev (.bwrite (.int (j + 1)) (content bits j)))
  | syncInstall _ => .suspended .syncInstall (.dev .sync)
  | resetHead _ => .suspended .resetHead (.dev (.bwrite (.int 0) (.dict [])))
  | syncEnd _ => .suspended .syncEnd (.dev .sync)
  | done _ => .finished

/-- The storage in a phase. -/
def storage : Phase → Storage Value
  | start | clearHead => ⟨Dict.empty, Dict.empty⟩
  | syncHead => ⟨Dict.empty, Dict.empty.set (.int 0) (.dict [])⟩
  | readHead => ⟨head, Dict.empty⟩
  | logBlock i => ⟨head, Dict.ofList (blocks i)⟩
  | crash => ⟨head, Dict.ofList (blocks N)⟩
  | write bits | syncLog bits | commit bits => ⟨survived N bits, Dict.empty⟩
  | syncCommit bits => ⟨survived N bits, Dict.empty.set (.int 0) (.dict (items N))⟩
  | readBlock bits j | install bits j => ⟨committed N bits, Dict.ofList (installed bits j)⟩
  | syncInstall bits => ⟨committed N bits, Dict.ofList (installed bits N)⟩
  | resetHead bits => ⟨updated N bits, Dict.empty⟩
  | syncEnd bits => ⟨updated N bits, Dict.empty.set (.int 0) (.dict [])⟩
  | done bits => ⟨final N bits, Dict.empty⟩

/-- What has been printed. -/
def stdout : Phase → Text
  | start | clearHead | syncHead | readHead | logBlock _ | crash | write _ => []
  | _ => ['N', 'o', 'n', 'e']

/-- The state in a phase. -/
def solo (p : Phase) : Solo Value Func Frame Unit :=
  ⟨p.context N, (), p.stdout, p.storage N⟩

/-- The bounds of the loops and the number of blocks. -/
def Valid : Phase → Prop
  | start | clearHead | syncHead | readHead | crash => True
  | logBlock i => i < N
  | write bits | syncLog bits | commit bits | syncCommit bits | syncInstall bits
  | resetHead bits | syncEnd bits | done bits => bits.length = N
  | readBlock bits j | install bits j => bits.length = N ∧ j < N

/-- The number of steps up to a phase. -/
def rank : Phase → ℕ
  | start => 0
  | clearHead => 1
  | syncHead => 2
  | readHead => 3
  | logBlock i => 4 + i
  | crash => 4 + N
  | write _ => 5 + N
  | syncLog _ => 6 + N
  | commit _ => 7 + N
  | syncCommit _ => 8 + N
  | readBlock _ j => 9 + N + 2 * j
  | install _ j => 10 + N + 2 * j
  | syncInstall _ => 9 + 3 * N
  | resetHead _ => 10 + 3 * N
  | syncEnd _ => 11 + 3 * N
  | done _ => 12 + 3 * N

end Phase

/-! ### What is read -/

theorem nodup_blocks (i : ℕ) : ((blocks i).map Prod.fst).Nodup := by
  have hkeys : (blocks i).map Prod.fst = (List.range i).map fun j => Value.int (j + 1) := by
    simp [blocks]
  rw [hkeys]
  exact List.nodup_range.map fun m n h => Nat.succ.inj (Value.int.inj h)

theorem entries_blocks (N : ℕ) : (Dict.ofList (blocks N)).entries = blocks N :=
  Dict.entries_ofList (nodup_blocks N)

/-- The block `j + 1` on the disk after the crash. -/
theorem get?_survived {N : ℕ} (bits : List Bool) {j : ℕ} (hj : j < N) :
    (survived N bits).get? (.int (j + 1)) =
      if bits[j]? = some true then some (.str (contents j)) else none := by
  have hblock : ∀ {i : ℕ} {v : Value}, (blocks N)[i]? = some (.int (j + 1), v) →
      i = j ∧ v = .str (contents j) := by
    intro i v h
    simp only [blocks, List.getElem?_map, Option.map_eq_some_iff, Prod.mk.injEq,
      Value.int.injEq, List.getElem?_eq_some_iff, List.getElem_range] at h
    obtain ⟨_, ⟨-, rfl⟩, hij, rfl⟩ := h
    obtain rfl := Nat.succ.inj hij
    exact ⟨rfl, rfl⟩
  have hself : (blocks N)[j]? = some (.int (j + 1), .str (contents j)) := by
    simp [blocks, hj]
  have hhead : head.get? (.int (j + 1)) = none := by
    unfold head
    rw [Dict.get?_union, Dict.get?_set_of_ne _ (by simp)]
    rfl
  unfold survived
  rw [Dict.get?_union, hhead, Option.or_none, entries_blocks]
  split_ifs with hbit
  · refine Dict.get?_update_of_mem (fun v hv => ?_) (mem_compress.mpr ⟨j, hself, hbit⟩) _
    obtain ⟨i, hi, -⟩ := mem_compress.mp hv
    exact (hblock hi).2
  · refine Dict.get?_update_of_not_mem (fun hmem => ?_) _
    obtain ⟨⟨_, v⟩, hv, rfl⟩ := List.mem_map.mp hmem
    obtain ⟨i, hi, hbit'⟩ := mem_compress.mp hv
    obtain ⟨rfl, -⟩ := hblock hi
    exact hbit hbit'

/-- Installing reads what survived. -/
theorem bread_content {N : ℕ} (bits : List Bool) {j : ℕ} (hj : j < N) :
    ((Dict.ofList (installed bits j)).get? (.int (j + 1))).getD
      (((committed N bits).get? (.int (j + 1))).getD .none) = content bits j := by
  have hbuf : (Dict.ofList (installed bits j)).get? (.int (j + 1)) = none := by
    refine Dict.get?_update_of_not_mem (fun hmem => ?_) _
    simp [installed] at hmem
  have hpersist : (committed N bits).get? (.int (j + 1)) =
      (survived N bits).get? (.int (j + 1)) := by
    unfold committed
    rw [Dict.get?_union, Dict.get?_set_of_ne _ (by simp)]
    rfl
  rw [hbuf, hpersist, get?_survived bits hj]
  unfold content
  split_ifs <;> rfl

/-! ### Steps -/

/-- At the beginning of a round of logging. -/
theorem ends_logRounds {N i : ℕ} (hi : i ≤ N) :
    ((logRounds N i (.dict (items i))).ends.map fun r =>
      (⟨r.1, r.2, [], head, Dict.ofList (blocks i)⟩ : Solo Value Func Frame Unit)) =
      some ((Phase.logging N i).solo N) := by
  unfold logRounds Phase.logging
  split_ifs with hlt
  · dsimp only
    rw [freeBlock_items]
    rfl
  · obtain rfl : i = N := le_antisymm hi (not_lt.mp hlt)
    rfl

/-- At the beginning of a round of installing. -/
theorem ends_installItems {N : ℕ} (bits : List Bool) {j : ℕ} (hj : j ≤ N) :
    ((installItems ((items N).drop j)).ends.map fun r =>
      (⟨r.1, r.2, ['N', 'o', 'n', 'e'], committed N bits, Dict.ofList (installed bits j)⟩ :
        Solo Value Func Frame Unit)) = some ((Phase.installing N bits j).solo N) := by
  have hlen : (items N).length = N := by simp [items]
  unfold Phase.installing
  split_ifs with hlt
  · have hdrop : (items N).drop j = (j + 1, j + 1) :: (items N).drop (j + 1) := by
      rw [List.drop_eq_getElem_cons (hlen.symm ▸ hlt)]
      simp [items]
    rw [hdrop]
    rfl
  · obtain rfl : j = N := le_antisymm hj (not_lt.mp hlt)
    rw [List.drop_of_length_le hlen.le]
    rfl

/-- **One step** outside the crash: there is one choice, and it leads to the next phase. -/
theorem step_eq {N : ℕ} {p : Phase} (hp : p.Valid N) (hcrash : p ≠ .crash)
    (hdone : ∀ bits, p ≠ .done bits) (choice : Label) :
    (p.solo N).step (xv6Log N) choice =
      if choice = .text p.label then some ((p.next N).solo N) else none := by
  cases p with
  | crash => exact absurd rfl hcrash
  | done bits => exact absurd rfl (hdone bits)
  | start => rfl
  | readHead =>
    refine (Solo.step_singleton rfl choice).trans (if_congr Iff.rfl ?_ rfl)
    exact ends_logRounds (Nat.zero_le N)
  | logBlock i =>
    refine (Solo.step_singleton rfl choice).trans (if_congr Iff.rfl ?_ rfl)
    have hends := ends_logRounds (show i + 1 ≤ N from hp)
    rw [← setEntry_items, blocks_succ, ofList_concat] at hends
    exact hends
  | syncCommit bits =>
    refine (Solo.step_singleton rfl choice).trans (if_congr Iff.rfl ?_ rfl)
    exact ends_installItems bits (Nat.zero_le N)
  | readBlock bits j =>
    refine (Solo.step_singleton rfl choice).trans (if_congr Iff.rfl ?_ rfl)
    exact congrArg (fun v => some (⟨.suspended (.install ((items N).drop (j + 1)))
      (.dev (.bwrite (.int (j + 1)) v)), (), ['N', 'o', 'n', 'e'], committed N bits,
        Dict.ofList (installed bits j)⟩ : Solo Value Func Frame Unit)) (bread_content bits hp.2)
  | install bits j =>
    refine (Solo.step_singleton rfl choice).trans (if_congr Iff.rfl ?_ rfl)
    have hends := ends_installItems bits (show j + 1 ≤ N from hp.2)
    rw [installed_succ, ofList_concat] at hends
    exact hends
  | _ =>
    refine (Solo.step_singleton rfl choice).trans (if_congr Iff.rfl ?_ rfl)
    rfl

theorem length_entries_blocks (N : ℕ) : (Dict.ofList (blocks N)).entries.length = N := by
  rw [entries_blocks]
  simp [blocks]

/-- The crash persists some subset of the blocks. -/
theorem step_crash {N : ℕ} {choice : Label} {s : Solo Value Func Frame Unit}
    (h : (Phase.crash.solo N).step (xv6Log N) choice = some s) :
    ∃ bits, bits.length = N ∧ s = (Phase.write bits).solo N := by
  obtain ⟨bits, hlen, hs⟩ := Solo.exists_step_crash_iff.mp ⟨choice, h⟩
  exact ⟨bits, hlen.trans (length_entries_blocks N), (Option.some.inj hs).symm⟩

/-- And it can persist any. -/
theorem exists_step_crash {N : ℕ} {bits : List Bool} (hlen : bits.length = N) :
    ∃ choice, (Phase.crash.solo N).step (xv6Log N) choice = some ((Phase.write bits).solo N) :=
  Solo.exists_step_crash_iff.mpr ⟨bits, hlen.trans (length_entries_blocks N).symm, rfl⟩

namespace Phase

variable {N : ℕ}

theorem valid_logging {i : ℕ} : (logging N i).Valid N := by
  unfold logging
  split_ifs with hlt
  · exact hlt
  · trivial

theorem rank_logging {i : ℕ} (hi : i ≤ N) : (logging N i).rank N = 4 + i := by
  unfold logging
  split_ifs with hlt
  · rfl
  · rw [le_antisymm hi (not_lt.mp hlt)]
    rfl

theorem valid_installing {bits : List Bool} (hbits : bits.length = N) {j : ℕ} :
    (installing N bits j).Valid N := by
  unfold installing
  split_ifs with hlt
  · exact ⟨hbits, hlt⟩
  · exact hbits

theorem rank_installing (bits : List Bool) {j : ℕ} (hj : j ≤ N) :
    (installing N bits j).rank N = 9 + N + 2 * j := by
  unfold installing
  split_ifs with hlt
  · rfl
  · rw [le_antisymm hj (not_lt.mp hlt)]
    show 9 + 3 * N = 9 + N + 2 * N
    omega

/-- The next phase is one step further. -/
theorem next_spec {p : Phase} (hp : p.Valid N) (hcrash : p ≠ crash)
    (hdone : ∀ bits, p ≠ done bits) :
    (p.next N).Valid N ∧ (p.next N).rank N = p.rank N + 1 := by
  cases p with
  | crash => exact absurd rfl hcrash
  | done bits => exact absurd rfl (hdone bits)
  | start => exact ⟨trivial, rfl⟩
  | clearHead => exact ⟨trivial, rfl⟩
  | syncHead => exact ⟨trivial, rfl⟩
  | readHead => exact ⟨valid_logging, rank_logging (Nat.zero_le N)⟩
  | logBlock i => exact ⟨valid_logging, rank_logging hp⟩
  | syncCommit bits =>
    refine ⟨valid_installing hp, (rank_installing bits (Nat.zero_le N)).trans ?_⟩
    show 9 + N + 2 * 0 = 8 + N + 1
    omega
  | readBlock bits j => exact ⟨hp, by show 10 + N + 2 * j = 9 + N + 2 * j + 1; omega⟩
  | install bits j =>
    refine ⟨valid_installing hp.1, (rank_installing bits hp.2).trans ?_⟩
    show 9 + N + 2 * (j + 1) = 10 + N + 2 * j + 1
    omega
  | _ => exact ⟨hp, by dsimp only [next, rank]; omega⟩

/-- The last phase is the farthest. -/
theorem rank_le {p : Phase} (hp : p.Valid N) : p.rank N ≤ 12 + 3 * N := by
  cases p with
  | logBlock i =>
    have hlt : i < N := hp
    show 4 + i ≤ _
    omega
  | readBlock bits j =>
    have hlt : j < N := hp.2
    show 9 + N + 2 * j ≤ _
    omega
  | install bits j =>
    have hlt : j < N := hp.2
    show 10 + N + 2 * j ≤ _
    omega
  | _ => dsimp only [rank]; omega

end Phase

/-! ### Runs -/

/-- **Every run** is in some phase. -/
theorem exists_phase {N : ℕ} (trace : List Label) : ∀ {s : Solo Value Func Frame Unit},
    Solo.run (xv6Log N) trace = some s →
      ∃ p : Phase, p.Valid N ∧ s = p.solo N ∧ p.rank N = trace.length := by
  induction trace using List.reverseRecOn with
  | nil =>
    intro s h
    exact ⟨.start, trivial, (Option.some.inj h).symm, rfl⟩
  | append_singleton trace choice ih =>
    intro s h
    rw [Solo.run_concat] at h
    obtain ⟨s₀, hs₀, hstep⟩ := Option.bind_eq_some_iff.mp h
    obtain ⟨p, hp, rfl, hrank⟩ := ih hs₀
    rw [List.length_append, List.length_singleton, ← hrank]
    by_cases hcrash : p = .crash
    · subst hcrash
      obtain ⟨bits, hlen, rfl⟩ := step_crash hstep
      exact ⟨.write bits, hlen, rfl, by show 5 + N = 4 + N + 1; omega⟩
    by_cases hdone : ∃ bits, p = .done bits
    · obtain ⟨bits, rfl⟩ := hdone
      cases hstep
    rw [step_eq hp hcrash fun bits hbits => hdone ⟨bits, hbits⟩] at hstep
    split_ifs at hstep
    obtain ⟨hvalid, hrank'⟩ := Phase.next_spec hp hcrash fun bits hbits => hdone ⟨bits, hbits⟩
    exact ⟨p.next N, hvalid, (Option.some.inj hstep).symm, hrank'⟩

/-- The state at the end: each block has its contents if it survived the crash and `None`
otherwise. -/
structure Ends (N : ℕ) (bits : List Bool) (d : Devices Value) : Prop where
  stdout : d.stdout = ['N', 'o', 'n', 'e']
  buf : d.storage.buf = Dict.empty
  head : d.storage.persist.get? (.int 0) = some (.dict [])
  block : ∀ i < N, d.storage.persist.get? (.int (i + 1)) = some (content bits i)
  other : ∀ k, (∀ n ≤ N, k ≠ .int n) → d.storage.persist.get? k = none

theorem ends_final (N : ℕ) (bits : List Bool) :
    Ends N bits ⟨['N', 'o', 'n', 'e'], final N bits, Dict.empty⟩ where
  stdout := rfl
  buf := rfl
  head := by
    show (final N bits).get? _ = _
    unfold final
    rw [Dict.get?_union, Dict.get?_set_self]
    rfl
  block := by
    intro i hi
    show (final N bits).get? _ = _
    have hmem : (Value.int (i + 1), content bits i) ∈ installed bits N :=
      List.mem_map.mpr ⟨i, List.mem_range.mpr hi, rfl⟩
    have hinstalled : (Dict.ofList (installed bits N)).get? (.int (i + 1)) =
        some (content bits i) := by
      refine Dict.get?_update_of_mem (fun v hv => ?_) hmem _
      obtain ⟨j, -, heq⟩ := List.mem_map.mp hv
      obtain ⟨hkey, rfl⟩ := Prod.mk.inj heq
      rw [Nat.succ.inj (Value.int.inj hkey)]
    unfold final updated
    rw [Dict.get?_union, Dict.get?_set_of_ne _ (by simp), Dict.get?_union, hinstalled]
    rfl
  other := by
    intro k hk
    show (final N bits).get? _ = _
    -- no write has this key
    have hzero : ∀ v, ((Dict.empty.set (.int 0) v : Dict Value Value)).get? k = none := by
      intro v
      rw [Dict.get?_set_of_ne _ (hk 0 (Nat.zero_le N))]
      rfl
    have hinstalled : (Dict.ofList (installed bits N)).get? k = none := by
      refine Dict.get?_update_of_not_mem (fun hmem => ?_) _
      simp only [installed, List.map_map, List.mem_map, List.mem_range] at hmem
      obtain ⟨i, hi, rfl⟩ := hmem
      exact hk (i + 1) hi rfl
    have hsurvived :
        (Dict.ofList (compress (Dict.ofList (blocks N)).entries bits)).get? k = none := by
      refine Dict.get?_update_of_not_mem (fun hmem => ?_) _
      rw [entries_blocks] at hmem
      have hmem' := ((compress_sublist (blocks N) bits).map Prod.fst).subset hmem
      simp only [blocks, List.map_map, List.mem_map, List.mem_range] at hmem'
      obtain ⟨i, hi, rfl⟩ := hmem'
      exact hk (i + 1) hi rfl
    unfold final updated committed survived Xv6Log.head
    simp only [Dict.get?_union, hzero, hinstalled, hsurvived, Option.none_or]
    rfl

section Sequential

variable {frame' : Frame} {call : Syscall Value Func} {h' : Unit}

theorem dev_of_logRounds {N i : ℕ} {log : Value}
    (h : logRounds N i log = .yields frame' call h') : ∃ c, call = .dev c := by
  unfold logRounds at h
  split_ifs at h
  · cases log <;> cases h
    exact ⟨_, rfl⟩
  · cases h
    exact ⟨_, rfl⟩

theorem dev_of_installItems {rest : List (ℕ × ℕ)}
    (h : installItems rest = .yields frame' call h') : ∃ c, call = .dev c := by
  cases rest <;> cases h <;> exact ⟨_, rfl⟩

end Sequential

theorem sequential (N : ℕ) : (xv6Log N).Sequential := by
  intro frame v h frame' call h' hout
  cases frame with
  | readHead => exact dev_of_logRounds hout
  | logBlock i log free => exact dev_of_logRounds hout
  | install rest => exact dev_of_installItems hout
  | syncEnd => cases hout
  | syncCommit log =>
    cases log with
    | dict items => exact dev_of_installItems hout
    | _ => cases hout
  | _ =>
    cases hout
    exact ⟨_, rfl⟩

/-- **What a run leaves behind.**  No run has more than `12 + 3 * N` steps, and one that has
returned has as many; then the head of the log is empty, and the blocks hold what survived the
crash. -/
theorem run_ends (N : ℕ) (trace : List Label) (k : ℕ) (w w' : World Unit)
    {os : OperatingSystem Value Func Frame}
    (hrun : OperatingSystem.run (xv6Log N) (trace.length + k) [] trace w = (.ok os, w')) :
    trace.length ≤ 12 + 3 * N ∧ (os.contexts = [.finished] →
      trace.length = 12 + 3 * N ∧ ∃ bits, bits.length = N ∧ Ends N bits os.devices) := by
  obtain ⟨s, hs, hctx, hdev⟩ := Solo.of_run (sequential N) hrun
  obtain ⟨p, hp, rfl, hrank⟩ := exists_phase trace hs
  rw [← hrank]
  refine ⟨Phase.rank_le hp, fun hfin => ?_⟩
  rw [hctx] at hfin
  have hdone : p.context N = .finished := List.singleton_injective hfin
  cases p with
  | done bits =>
    refine ⟨rfl, bits, hp, ?_⟩
    rw [hdev]
    exact ends_final N bits
  | _ => cases hdone

/-- One write, which survives the crash. -/
def oneWrite : List Label :=
  [.text ['m', 'a', 'i', 'n'], .text ['b', 'w', 'r', 'i', 't', 'e'], .text ['s', 'y', 'n', 'c'],
    .text ['b', 'r', 'e', 'a', 'd'], .text ['b', 'w', 'r', 'i', 't', 'e'], .num 1,
    .text ['w', 'r', 'i', 't', 'e'], .text ['s', 'y', 'n', 'c'],
    .text ['b', 'w', 'r', 'i', 't', 'e'], .text ['s', 'y', 'n', 'c'],
    .text ['b', 'r', 'e', 'a', 'd'], .text ['b', 'w', 'r', 'i', 't', 'e'],
    .text ['s', 'y', 'n', 'c'], .text ['b', 'w', 'r', 'i', 't', 'e'], .text ['s', 'y', 'n', 'c']]

/-- It can be executed, and the program returns. -/
theorem run_oneWrite :
    ((OperatingSystem.run (xv6Log 1) (oneWrite.length + 0) [] oneWrite
      ⟨[], 0, []⟩).1.toOption.map fun os => os.contexts) = some [.finished] := by
  decide +kernel

theorem run_ends_oneWrite : ∃ os w',
    OperatingSystem.run (xv6Log 1) (oneWrite.length + 0) [] oneWrite ⟨[], 0, []⟩ = (.ok os, w') ∧
      ∃ bits, bits.length = 1 ∧ Ends 1 bits os.devices := by
  have hrun := run_oneWrite
  cases hos : OperatingSystem.run (xv6Log 1) (oneWrite.length + 0) [] oneWrite ⟨[], 0, []⟩ with
  | mk r w' =>
    rw [hos] at hrun
    cases r with
    | error e => cases hrun
    | ok os =>
      exact ⟨os, w', rfl, ((run_ends 1 oneWrite 0 ⟨[], 0, []⟩ w' hos).2 (Option.some.inj hrun)).2⟩

/-- Where the phases lead: to the crash, and behind it to the end. -/
def Phase.goal : Phase → Phase
  | start | clearHead | syncHead | readHead | logBlock _ | crash => crash
  | write bits | syncLog bits | commit bits | syncCommit bits | readBlock bits _ | install bits _
  | syncInstall bits | resetHead bits | syncEnd bits | done bits => done bits

theorem Phase.goal_logging (N i : ℕ) : (logging N i).goal = crash := by
  unfold logging
  split_ifs <;> rfl

theorem Phase.goal_installing (N : ℕ) (bits : List Bool) (j : ℕ) :
    (installing N bits j).goal = done bits := by
  unfold installing
  split_ifs <;> rfl

theorem Phase.goal_next (N : ℕ) (p : Phase) : (p.next N).goal = p.goal := by
  cases p with
  | readHead => exact goal_logging N 0
  | logBlock i => exact goal_logging N (i + 1)
  | syncCommit bits => exact goal_installing N bits 0
  | install bits j => exact goal_installing N bits (j + 1)
  | _ => rfl

theorem Phase.goal_cases (p : Phase) :
    p.goal = p ∨ (p ≠ crash ∧ ∀ bits, p ≠ done bits) := by
  cases p with
  | crash => exact Or.inl rfl
  | done bits => exact Or.inl rfl
  | _ => exact Or.inr ⟨Phase.noConfusion, fun _ => Phase.noConfusion⟩

theorem Phase.rank_lt_goal {N : ℕ} {p : Phase} (hp : p.Valid N) (hcrash : p ≠ crash)
    (hdone : ∀ bits, p ≠ done bits) : p.rank N < p.goal.rank N := by
  cases p with
  | crash => exact absurd rfl hcrash
  | done bits => exact absurd rfl (hdone bits)
  | logBlock i =>
    have hlt : i < N := hp
    show 4 + i < 4 + N
    omega
  | readBlock bits j =>
    have hlt : j < N := hp.2
    show 9 + N + 2 * j < 12 + 3 * N
    omega
  | install bits j =>
    have hlt : j < N := hp.2
    show 10 + N + 2 * j < 12 + 3 * N
    omega
  | _ => dsimp only [goal, rank]; omega

/-- A run can be continued to the crash, and from there to the end. -/
theorem exists_run_goal {N : ℕ} (n : ℕ) : ∀ {p : Phase} {trace : List Label}, p.Valid N →
    p.goal.rank N ≤ p.rank N + n → Solo.run (xv6Log N) trace = some (p.solo N) →
      ∃ trace', Solo.run (xv6Log N) trace' = some (p.goal.solo N) := by
  induction n with
  | zero =>
    intro p trace hp hrank hrun
    rcases p.goal_cases with hgoal | ⟨hcrash, hdone⟩
    · exact ⟨trace, hgoal.symm ▸ hrun⟩
    · exact absurd (Phase.rank_lt_goal hp hcrash hdone) (not_lt.mpr hrank)
  | succ n ih =>
    intro p trace hp hrank hrun
    rcases p.goal_cases with hgoal | ⟨hcrash, hdone⟩
    · exact ⟨trace, hgoal.symm ▸ hrun⟩
    · obtain ⟨hvalid, hrank'⟩ := Phase.next_spec hp hcrash hdone
      have hrun' : Solo.run (xv6Log N) (trace ++ [.text p.label]) =
          some ((p.next N).solo N) := by
        rw [Solo.run_concat, hrun]
        exact (step_eq hp hcrash hdone _).trans (if_pos rfl)
      have hgoal := ih hvalid (by rw [Phase.goal_next]; omega) hrun'
      rwa [Phase.goal_next] at hgoal

/-- **Every outcome is possible**: any subset of the blocks can survive the crash. -/
theorem exists_run_ends {N : ℕ} {bits : List Bool} (hlen : bits.length = N) (k : ℕ)
    (w : World Unit) : ∃ trace os w',
      OperatingSystem.run (xv6Log N) (trace.length + k) [] trace w = (.ok os, w') ∧
        os.contexts = [.finished] ∧ Ends N bits os.devices := by
  have hstart : Solo.run (xv6Log N) [] = some (Phase.start.solo N) := rfl
  have hwrite : (Phase.write bits).Valid N := hlen
  obtain ⟨trace₁, hrun₁⟩ := exists_run_goal (4 + N) (show Phase.start.Valid N from trivial)
    (by show 4 + N ≤ 0 + (4 + N); omega) hstart
  obtain ⟨choice, hstep⟩ := exists_step_crash hlen
  have hrun₂ : Solo.run (xv6Log N) (trace₁ ++ [choice]) = some ((Phase.write bits).solo N) := by
    rw [Solo.run_concat, hrun₁]
    exact hstep
  obtain ⟨trace, hrun⟩ := exists_run_goal (7 + 2 * N) hwrite
    (by show 12 + 3 * N ≤ 5 + N + (7 + 2 * N); omega) hrun₂
  obtain ⟨os, w', hos, hctx, hdev⟩ := Solo.exists_run (sequential N) hrun k w
  refine ⟨trace, os, w', hos, hctx, ?_⟩
  rw [hdev]
  exact ends_final N bits

theorem exists_run_ends_oneWrite : ∃ trace os w',
    OperatingSystem.run (xv6Log 1) (trace.length + 0) [] trace ⟨[], 0, []⟩ = (.ok os, w') ∧
      os.contexts = [.finished] ∧ Ends 1 [false] os.devices :=
  exists_run_ends (show [false].length = 1 from rfl) 0 ⟨[], 0, []⟩

end Jyyos.Mosaic.Xv6Log
