import Jyyos.Pstree.Equiv.Print
import Jyyos.Pstree.Main
import Mathlib.Data.List.Chain

/-!
# The whole program `pstree`

`Shows` says what a system shows in `/proc`: for each process a directory named by its number, with
a `status` file that has the number of the process and that of its parent among its lines, unless
the process is gone by then.  `GetProcessids` reads these numbers back (`readStatus_statusFile`,
`scanLoop_eq`), so that the program prints one line for each process that descends from the first
one, in the order of the numbers on the way down (`main_prints_tree`).
-/

namespace Jyyos.Pstree

open PreorderWalk

/-! ### The fields of a `status` file -/

theorem length_decimal_le {n : ℕ} (hn : n < 2 ^ 31) : (decimal n).length ≤ 10 := by
  unfold decimal cstr
  rw [List.length_map, Nat.length_toDigits_le_iff (by decide) (by decide)]
  omega

theorem isdigit_ne_newline {c : UInt8} (h : isdigit c) : c ≠ newline := by
  rintro rfl
  exact absurd h (by decide)

theorem isdigit_ne_zero {c : UInt8} (h : isdigit c) : c ≠ 0 := by
  rintro rfl
  exact absurd h (by decide)

theorem isBlank_of_isdigit {c : UInt8} (h : isdigit c) : isBlank c = false := by
  cases hc : isBlank c with
  | false => rfl
  | true =>
    unfold isBlank at hc
    rw [Bool.or_eq_true, beq_iff_eq, beq_iff_eq] at hc
    rcases hc with rfl | rfl
    · exact absurd h (by decide)
    · exact absurd h (by decide)

/-- A number behind a tab is read back. -/
theorem fieldValue_decimal {n : ℕ} (hn : n < 2 ^ 31) :
    fieldValue ('\t'.toUInt8 :: decimal n ++ [newline]) = decimal n := by
  have hdigit : ∀ c ∈ decimal n, isdigit c := fun c hc => isDigit_of_mem_decimal hc
  have hlen := length_decimal_le hn
  have hdrop : ('\t'.toUInt8 :: decimal n ++ [newline]).dropWhile isBlank =
      decimal n ++ [newline] := by
    rw [List.cons_append, List.dropWhile_cons_of_pos (by decide)]
    cases hd : decimal n with
    | nil => exact absurd hd (decimal_ne_nil n)
    | cons c cs =>
      have hc := isBlank_of_isdigit (hdigit c (hd ▸ List.mem_cons_self))
      rw [List.cons_append, List.dropWhile_cons_of_neg (by rw [hc]; exact Bool.false_ne_true)]
  unfold fieldValue
  rw [hdrop, List.take_of_length_le (by simp [fieldSize]; omega)]
  rw [List.takeWhile_append_of_pos]
  · simp
  · intro c hc
    exact bne_iff_ne.mpr (isdigit_ne_newline (hdigit c hc))

/-- A line of a `status` file in front of the identifiers: it fits into the buffer, and it is none
of the two fields. -/
structure IsOther (line : CStr) : Prop where
  newline_not_mem : newline ∉ line
  length_lt : line.length < bufferSize - 1
  not_pid : ¬cstr "Pid:".toList <+: line
  not_ppid : ¬cstr "PPid:".toList <+: line

/-- A `status` file. -/
def statusFile (before : List CStr) (pid ppid : ℕ) (rest : List UInt8) : List UInt8 :=
  before.flatMap (fun line => line ++ [newline]) ++
    (cstr "Pid:\t".toList ++ decimal pid ++ newline ::
      (cstr "PPid:\t".toList ++ decimal ppid ++ newline :: rest))

/-- One round of the loop, on a line that fits into the buffer. -/
theorem readLoop_line {line : CStr} (hline : newline ∉ line) (hlen : line.length < bufferSize - 1)
    (rounds : ℕ) (f : Fields) (rest : List UInt8) :
    readLoop (rounds + 1) f (line ++ newline :: rest) =
      if (f.readLine (cstrOf (line ++ [newline]))).complete then
        f.readLine (cstrOf (line ++ [newline]))
      else readLoop rounds (f.readLine (cstrOf (line ++ [newline]))) rest := by
  rw [readLoop, fgets_line hline rest hlen]

theorem not_prefix_cstrOf {field line : CStr} (hfield : newline ∉ field)
    (h : ¬field <+: line) : field.isPrefixOf (cstrOf (line ++ [newline])) = false := by
  rw [Bool.eq_false_iff, ne_eq, List.isPrefixOf_iff_prefix]
  intro hstarts
  rcases List.prefix_concat_iff.mp (hstarts.trans (List.takeWhile_prefix _)) with rfl | hline
  · exact hfield (List.mem_append_right _ List.mem_cons_self)
  · exact h hline

theorem readLine_other {line : CStr} (h : IsOther line) (f : Fields) :
    f.readLine (cstrOf (line ++ [newline])) = f := by
  unfold Fields.readLine
  rw [not_prefix_cstrOf (by decide) h.not_pid, not_prefix_cstrOf (by decide) h.not_ppid]
  rfl

/-- What a line with one of the fields is as a C string. -/
theorem cstrOf_field {name : CStr} (hname : 0 ∉ name) (n : ℕ) :
    cstrOf (name ++ decimal n ++ [newline]) = name ++ decimal n ++ [newline] := by
  apply cstrOf_of_not_mem
  rw [List.mem_append, List.mem_append, not_or, not_or]
  refine ⟨⟨hname, fun h => ?_⟩, by decide⟩
  exact isdigit_ne_zero (isDigit_of_mem_decimal h) rfl

theorem readLine_pid {pid : ℕ} (hpid : pid < 2 ^ 31) (f : Fields) :
    f.readLine (cstrOf (cstr "Pid:\t".toList ++ decimal pid ++ [newline])) =
      { f with pidStr := decimal pid } := by
  rw [cstrOf_field (by decide)]
  exact congrArg (fun value => { f with pidStr := value }) (fieldValue_decimal hpid)

theorem readLine_ppid {ppid : ℕ} (hppid : ppid < 2 ^ 31) (f : Fields) :
    f.readLine (cstrOf (cstr "PPid:\t".toList ++ decimal ppid ++ [newline])) =
      { f with ppidStr := decimal ppid } := by
  rw [cstrOf_field (by decide)]
  exact congrArg (fun value => { f with ppidStr := value }) (fieldValue_decimal hppid)

theorem newline_not_mem_field {name : CStr} (hname : newline ∉ name) (n : ℕ) :
    newline ∉ name ++ decimal n := by
  rw [List.mem_append, not_or]
  exact ⟨hname, fun h => isdigit_ne_newline (isDigit_of_mem_decimal h) rfl⟩

/-- **The two numbers are read back**, whatever follows them. -/
theorem readStatus_statusFile {before : List CStr} (hbefore : ∀ l ∈ before, IsOther l)
    {pid ppid : ℕ} (hpid : pid < 2 ^ 31) (hppid : ppid < 2 ^ 31) (rest : List UInt8) :
    readStatus (statusFile before pid ppid rest) = ⟨decimal pid, decimal ppid⟩ := by
  -- the number of rounds matters only as a bound
  have hloop : ∀ rounds, (statusFile before pid ppid rest).length ≤ rounds →
      readLoop rounds {} (statusFile before pid ppid rest) = ⟨decimal pid, decimal ppid⟩ := by
    induction before with
    | nil =>
      intro rounds hrounds
      obtain ⟨k, rfl⟩ : ∃ k, rounds = k + 2 := by
        simp [statusFile, cstr] at hrounds
        exact ⟨rounds - 2, by omega⟩
      have hlen : ∀ {name : CStr} {n}, n < 2 ^ 31 → name.length ≤ 6 →
          (name ++ decimal n).length < bufferSize - 1 := by
        intro name n hn hname
        have := length_decimal_le hn
        rw [List.length_append]
        show _ < 255
        omega
      rw [statusFile, List.flatMap_nil, List.nil_append,
        readLoop_line (newline_not_mem_field (by decide) pid) (hlen hpid (by decide)),
        readLine_pid hpid, if_neg (by simp [Fields.complete]),
        readLoop_line (newline_not_mem_field (by decide) ppid) (hlen hppid (by decide)),
        readLine_ppid hppid]
      exact if_pos (by simp [Fields.complete, decimal_ne_nil])
    | cons line before ih =>
      intro rounds hrounds
      have hother := hbefore line List.mem_cons_self
      have hfile : statusFile (line :: before) pid ppid rest =
          line ++ newline :: statusFile before pid ppid rest := by
        simp [statusFile]
      rw [hfile] at hrounds ⊢
      rw [List.length_append, List.length_cons] at hrounds
      obtain ⟨k, rfl⟩ : ∃ k, rounds = k + 1 := ⟨rounds - 1, by omega⟩
      rw [readLoop_line hother.newline_not_mem hother.length_lt, readLine_other hother,
        if_neg (by simp [Fields.complete])]
      exact ih (fun l hl => hbefore l (List.mem_cons_of_mem _ hl)) k (by omega)
  exact hloop _ (le_refl _)

/-! ### The table -/

/-- The loop over the directory collects the processes that can be read, as far as the table has
room. -/
theorem scanLoop_eq (fopen : CStr → Option (List UInt8)) (names : List CStr) :
    ∀ {processes : List ProcessNode}, processes.length < maxProcesses →
      scanLoop fopen names processes =
        (processes ++ names.filterMap (readProcess fopen)).take maxProcesses := by
  induction names with
  | nil =>
    intro processes h
    rw [scanLoop, List.filterMap_nil, List.append_nil, List.take_of_length_le (Nat.le_of_lt h)]
  | cons name names ih =>
    intro processes h
    cases hread : readProcess fopen name with
    | none => rw [scanLoop, hread, List.filterMap_cons_none hread, ih h]
    | some process =>
      have hlen : (processes ++ [process]).length = processes.length + 1 := by simp
      have happend : processes ++ process :: names.filterMap (readProcess fopen) =
          (processes ++ [process]) ++ names.filterMap (readProcess fopen) := by simp
      rw [scanLoop, hread, List.filterMap_cons_some hread, happend]
      show (if _ then _ else _ : List ProcessNode) = _
      split_ifs with hfull
      · -- the table has just become full
        rw [List.take_append_of_le_length hfull, List.take_of_length_le (by omega)]
      · exact ih (not_le.mp hfull)

/-- An entry of `/proc`: the number of a process and that of its parent, or `none` if the process
is gone when its file is read. -/
abbrev Entry := ℕ × Option ℕ

/-- What `/proc` shows of the processes. -/
structure Shows (fopen : CStr → Option (List UInt8)) (names : List CStr) (entries : List Entry) :
    Prop where
  names_eq : names.filter isPid = entries.map fun e => decimal e.1
  pid_lt : ∀ e ∈ entries, e.1 < 2 ^ 31
  gone : ∀ pid, (pid, none) ∈ entries → fopen (statusPath (decimal pid)) = none
  status : ∀ pid ppid, (pid, some ppid) ∈ entries → ppid < 2 ^ 31 ∧ ∃ before rest,
    (∀ l ∈ before, IsOther l) ∧
      fopen (statusPath (decimal pid)) = some (statusFile before pid ppid rest)

/-- The processes that are there, each with its parent. -/
def live (entries : List Entry) : List (ℕ × ℕ) :=
  entries.filterMap fun e => e.2.map fun ppid => (e.1, ppid)

/-- The entry of the table for a process. -/
def nodeOf (p : ℕ × ℕ) : ProcessNode := ⟨decimal p.1, decimal p.2⟩

theorem isPid_decimal (n : ℕ) : isPid (decimal n) = true :=
  List.all_eq_true.mpr fun _ hc => isDigit_of_mem_decimal hc

theorem readProcess_shown {fopen : CStr → Option (List UInt8)} {names : List CStr}
    {entries : List Entry} (h : Shows fopen names entries) {e : Entry} (he : e ∈ entries) :
    readProcess fopen (decimal e.1) = e.2.map fun ppid => nodeOf (e.1, ppid) := by
  have hlen := length_decimal_le (h.pid_lt e he)
  unfold readProcess
  rw [if_pos (isPid_decimal e.1), if_neg (by unfold maxName; omega)]
  obtain ⟨pid, ppid⟩ := e
  cases ppid with
  | none => rw [h.gone pid he]; rfl
  | some ppid =>
    obtain ⟨hppid, before, rest, hbefore, hfile⟩ := h.status pid ppid he
    rw [hfile]
    show (if (readStatus _).complete then some _ else none) = _
    rw [readStatus_statusFile hbefore (h.pid_lt _ he) hppid]
    exact if_pos (by simp [Fields.complete, decimal_ne_nil])

/-- **The table** has the processes that are there, in the order of the directory. -/
theorem filterMap_readProcess {fopen : CStr → Option (List UInt8)} {names : List CStr}
    {entries : List Entry} (h : Shows fopen names entries) :
    names.filterMap (readProcess fopen) = (live entries).map nodeOf := by
  -- names that are no numbers give nothing
  have hfilter : names.filterMap (readProcess fopen) =
      (names.filter isPid).filterMap (readProcess fopen) := by
    rw [List.filterMap_filter]
    refine List.filterMap_congr fun name _ => ?_
    cases hpid : isPid name with
    | true => rfl
    | false => exact if_neg (by rw [hpid]; exact Bool.false_ne_true)
  rw [hfilter, h.names_eq, List.filterMap_map, live, List.map_filterMap]
  refine List.filterMap_congr fun e he => ?_
  rw [Function.comp_apply, readProcess_shown h he, Option.map_map]
  rfl

/-! ### The tree -/

theorem decimal_injective : Function.Injective decimal := by
  intro m n h
  rw [← digitsValue_decimal m, h, digitsValue_decimal]

/-- `c` goes from a process to its parent and on, up to process 1. -/
structure Descends (ps : List (ℕ × ℕ)) (c : List ℕ) : Prop where
  chain : c.IsChain fun p q => (p, q) ∈ ps
  last : c.getLast? = some 1

/-- The line that is printed for the process at the beginning of a chain. -/
def chainText (fopen : CStr → Option (List UInt8)) (showPids : Bool) : List ℕ → List UInt8
  | [] => []
  | p :: above => line fopen showPids above.length (decimal p)

/-- The processes of a system: the numbers are distinct, process 1 has no parent among them, and
there is room for all of them and for the children of each. -/
structure Ordinary (ps : List (ℕ × ℕ)) : Prop where
  distinct : (ps.map Prod.fst).Nodup
  pid_lt : ∀ p ∈ ps, p.1 < 2 ^ 31
  pos : ∀ p ∈ ps, 0 < p.1
  init : (1, 0) ∈ ps
  few : ps.length ≤ maxProcesses
  few_children : ∀ q, (ps.filter fun p => p.2 = q).length ≤ maxChildren

/-- The number of an entry. -/
abbrev num (p : ProcessNode) : ℕ := digitsValue p.pid

theorem num_nodeOf (p : ℕ × ℕ) : num (nodeOf p) = p.1 := digitsValue_decimal p.1

theorem lex_map {α : Type*} (f : α → ℕ) {l m : List α}
    (h : List.Lex (fun a b => f a < f b) l m) : List.Lex (· < ·) (l.map f) (m.map f) := by
  induction h with
  | nil => exact .nil
  | cons _ ih => exact .cons ih
  | rel hlt => exact .rel hlt

section Ordinary

variable {ps : List (ℕ × ℕ)} (h : Ordinary ps)
include h

/-- The table of these processes. -/
def Ordinary.tree : ProcessTree where
  processes := ps.map nodeOf
  count_le := by rw [List.length_map]; exact h.few

theorem Ordinary.wellFormed : h.tree.WellFormed num where
  distinct := by
    show ((ps.map nodeOf).map ProcessNode.pid).Nodup
    have hmap : (ps.map nodeOf).map ProcessNode.pid = (ps.map Prod.fst).map decimal := by
      rw [List.map_map, List.map_map]
      rfl
    rw [hmap]
    exact h.distinct.map decimal_injective
  canonical := by
    intro p hp
    obtain ⟨q, -, rfl⟩ := List.mem_map.mp hp
    rw [num_nodeOf]
    rfl
  num_lt := by
    intro p hp
    obtain ⟨q, hq, rfl⟩ := List.mem_map.mp hp
    rw [num_nodeOf]
    exact h.pid_lt q hq
  few := by
    intro s
    show ((ps.map nodeOf).filter fun p => p.ppid == s).length ≤ maxChildren
    rw [List.filter_map, List.length_map]
    -- a string that is no number is nobody's parent
    by_cases hs : ∃ q, decimal q = s
    · obtain ⟨q, rfl⟩ := hs
      refine le_trans (le_of_eq (congrArg List.length (List.filter_congr fun p _ => ?_)))
        (h.few_children q)
      show (decimal p.2 == decimal q) = decide (p.2 = q)
      rw [Bool.eq_iff_iff, beq_iff_eq, decide_eq_true_iff, decimal_injective.eq_iff]
    · rw [List.filter_eq_nil_iff.mpr]
      · exact Nat.zero_le _
      · intro p _ hp
        exact hs ⟨p.2, beq_iff_eq.mp hp⟩

theorem Ordinary.findRootProcess : h.tree.findRootProcess = some (decimal 1) := by
  have hroot := h.wellFormed.findProcessByPid_eq (List.mem_map_of_mem h.init)
  have hone : cstr "1".toList = (nodeOf (1, 0)).pid := by decide
  unfold ProcessTree.findRootProcess
  rw [hone, hroot]
  rfl

theorem Ordinary.parent_unique {p q q' : ℕ} (hq : (p, q) ∈ ps) (hq' : (p, q') ∈ ps) : q = q' :=
  congrArg Prod.snd (List.inj_on_of_nodup_map h.distinct hq hq' rfl)

/-- Chains of entries are chains of numbers. -/
theorem Ordinary.descends_of_leadsTo {c : List ProcessNode}
    (hc : h.tree.LeadsTo (nodeOf (1, 0)) c) : Descends ps (c.map num) := by
  refine ⟨?_, ?_⟩
  · rw [List.isChain_map]
    refine hc.chain.imp_of_mem_imp fun a b ha hb hab => ?_
    obtain ⟨p, hp, rfl⟩ := List.mem_map.mp (hc.mem a ha)
    obtain ⟨q, -, rfl⟩ := List.mem_map.mp (hc.mem b hb)
    have hparent : p.2 = q.1 := decimal_injective hab
    rw [num_nodeOf, num_nodeOf, ← hparent]
    exact hp
  · rw [List.getLast?_map, hc.last]
    exact congrArg some (num_nodeOf (1, 0))

/-- And the other way round. -/
theorem Ordinary.exists_leadsTo {c : List ℕ} (hc : Descends ps c) :
    ∃ c', h.tree.LeadsTo (nodeOf (1, 0)) c' ∧ c'.map num = c := by
  induction c with
  | nil => cases hc.last
  | cons p c ih =>
    cases c with
    | nil =>
      obtain rfl : p = 1 := Option.some.inj hc.last
      refine ⟨[nodeOf (1, 0)], ⟨List.IsChain.singleton _, rfl, fun a ha => ?_⟩, ?_⟩
      · rw [List.mem_singleton.mp ha]
        exact List.mem_map_of_mem h.init
      · rw [List.map_singleton, num_nodeOf]
    | cons q c =>
      have hchain := List.isChain_cons_cons.mp hc.chain
      obtain ⟨c', hc', hmap⟩ := ih ⟨hchain.2, by rw [← hc.last, List.getLast?_cons_cons]⟩
      cases c' with
      | nil => cases hmap
      | cons b c' =>
        obtain ⟨hb, hmap'⟩ := List.cons.inj hmap
        obtain ⟨q', -, rfl⟩ := List.mem_map.mp (hc'.mem b List.mem_cons_self)
        rw [num_nodeOf] at hb
        refine ⟨nodeOf (p, q) :: nodeOf q' :: c', ⟨?_, ?_, fun a ha => ?_⟩, ?_⟩
        · refine List.isChain_cons_cons.mpr ⟨?_, hc'.chain⟩
          exact congrArg decimal hb.symm
        · rw [List.getLast?_cons_cons]
          exact hc'.last
        · rcases List.mem_cons.mp ha with rfl | ha
          · exact List.mem_map_of_mem hchain.1
          · exact hc'.mem a ha
        · rw [List.map_cons, hmap, num_nodeOf]

/-- A process has one way up. -/
theorem Ordinary.eq_of_head {c d : List ℕ} (hc : Descends ps c) (hd : Descends ps d)
    (hhead : c.head? = d.head?) : c = d := by
  -- process 1 has the parent 0, which is no process
  have hone : ∀ {e : List ℕ}, Descends ps (1 :: e) → e = [] := by
    intro e he
    cases e with
    | nil => rfl
    | cons q e =>
      obtain ⟨hq, hchain⟩ := List.isChain_cons_cons.mp he.chain
      obtain rfl := h.parent_unique hq h.init
      cases e with
      | nil => cases he.last
      | cons r e => exact absurd (h.pos _ (List.isChain_cons_cons.mp hchain).1) (lt_irrefl 0)
  induction c generalizing d with
  | nil => cases hc.last
  | cons p c ih =>
    cases d with
    | nil => cases hd.last
    | cons p' d =>
      obtain rfl : p = p' := Option.some.inj hhead
      cases c with
      | nil =>
        obtain rfl : p = 1 := Option.some.inj hc.last
        rw [hone hd]
      | cons q c =>
        cases d with
        | nil =>
          obtain rfl : p = 1 := Option.some.inj hd.last
          cases hone hc
        | cons q' d =>
          obtain ⟨hq, hc'⟩ := List.isChain_cons_cons.mp hc.chain
          obtain ⟨hq', hd'⟩ := List.isChain_cons_cons.mp hd.chain
          obtain rfl := h.parent_unique hq hq'
          have hclast : (q :: c).getLast? = some 1 := by rw [← hc.last, List.getLast?_cons_cons]
          have hdlast : (q :: d).getLast? = some 1 := by rw [← hd.last, List.getLast?_cons_cons]
          rw [ih ⟨hc', hclast⟩ ⟨hd', hdlast⟩ rfl]

variable {qsort : (ProcessNode → ProcessNode → ℤ) → List ProcessNode → List ProcessNode}
  (hq : IsQsort qsort)
include hq

/-- The walk through the table ends. -/
theorem Ordinary.exists_walk : ∃ chains,
    walk (h.tree.children qsort) (ps.length + 1) [] (nodeOf (1, 0)) = some chains := by
  have hroot : nodeOf (1, 0) ∈ h.tree.processes := List.mem_map_of_mem h.init
  -- nobody is the parent of process 1
  have hnochild : ∀ a, nodeOf (1, 0) ∉ h.tree.children qsort a := by
    intro a ha
    obtain ⟨ha, -, hparent⟩ := (mem_children h.wellFormed hq).mp ha
    obtain ⟨p, hp, rfl⟩ := List.mem_map.mp ha
    exact absurd (h.pos p hp) (Nat.not_lt.mpr (le_of_eq (decimal_injective hparent).symm))
  have hlen : ∀ c, Below (h.tree.children qsort) [nodeOf (1, 0)] c → c.length ≤ ps.length := by
    intro c hc
    have hsub : c ⊆ h.tree.processes := ((below_iff_leadsTo h.wellFormed hq hroot).mp hc).mem
    have hnodup := hc.nodup (uniqueParent_children h.wellFormed hq) hnochild
    have hle := (List.Nodup.subperm hnodup hsub).length_le
    rwa [show h.tree.processes.length = ps.length from List.length_map _] at hle
  exact walk_isSome hlen (ps.length + 1) [] (nodeOf (1, 0)) .refl (by simp)

/-- **What is printed** for the table of these processes. -/
theorem Ordinary.exists_order (fopen : CStr → Option (List UInt8)) (showPids : Bool) :
    ∃ order : List (List ℕ),
      (∀ fuel, ps.length < fuel →
        printProcessTree fopen qsort h.tree showPids fuel (decimal 1) 0 =
          some (order.flatMap (chainText fopen showPids))) ∧
      (∀ c, c ∈ order ↔ Descends ps c) ∧ (order.map List.head?).Nodup ∧
      order.Pairwise fun c d => List.Lex (· < ·) c.reverse d.reverse := by
  obtain ⟨chains, hwalk⟩ := h.exists_walk hq
  have hroot : nodeOf (1, 0) ∈ h.tree.processes := List.mem_map_of_mem h.init
  have hmem : ∀ c, c ∈ chains ↔ h.tree.LeadsTo (nodeOf (1, 0)) c := by
    intro c
    rw [mem_walk hwalk, below_iff_leadsTo h.wellFormed hq hroot]
  have horder : ∀ c, c ∈ chains.map (List.map num) ↔ Descends ps c := by
    intro c
    rw [List.mem_map]
    constructor
    · rintro ⟨c', hc', rfl⟩
      exact h.descends_of_leadsTo ((hmem c').mp hc')
    · intro hc
      obtain ⟨c', hc', rfl⟩ := h.exists_leadsTo hc
      exact ⟨c', (hmem c').mpr hc', rfl⟩
  have hsorted : (chains.map (List.map num)).Pairwise
      fun c d => List.Lex (· < ·) c.reverse d.reverse := by
    rw [List.pairwise_map]
    refine (pairwise_walk (pairwise_children h.wellFormed hq) hwalk).imp fun hlex => ?_
    rw [← List.map_reverse, ← List.map_reverse]
    exact lex_map num hlex
  refine ⟨chains.map (List.map num), fun fuel hfuel => ?_, horder, ?_, hsorted⟩
  · have hprint := printProcessTree_of_walk h.wellFormed hq fopen showPids fuel hroot
      (walk_mono hfuel hwalk)
    refine hprint.trans (congrArg some ?_)
    rw [List.flatMap_map]
    refine List.flatMap_congr fun c hc => ?_
    -- the identifiers in the table are the numbers in decimal
    cases c with
    | nil => rfl
    | cons p c =>
      have hp := h.wellFormed.canonical p (((hmem _).mp hc).mem p List.mem_cons_self)
      show line fopen showPids c.length p.pid =
        line fopen showPids (c.map num).length (decimal (num p))
      rw [List.length_map, ← hp]
  · have hne : (chains.map (List.map num)).Nodup := by
      refine hsorted.imp ?_
      rintro c _ hlex rfl
      exact List.lex_irrefl (fun p => lt_irrefl p) _ hlex
    refine List.Nodup.map_on (fun c hc d hd hhead => ?_) hne
    exact h.eq_of_head ((horder c).mp hc) ((horder d).mp hd) hhead

end Ordinary

/-- `GetProcessids` fills the table with the processes that are there. -/
theorem getProcessids_shown {fopen : CStr → Option (List UInt8)} {names : List CStr}
    {entries : List Entry} (hshows : Shows fopen names entries) (h : Ordinary (live entries)) :
    getProcessids fopen (some names) = some h.tree := by
  have hprocesses : scanLoop fopen names [] = (live entries).map nodeOf := by
    rw [scanLoop_eq fopen names (by decide), List.nil_append, filterMap_readProcess hshows,
      List.take_of_length_le (by rw [List.length_map]; exact h.few)]
  unfold getProcessids Ordinary.tree
  simp only [Option.map_some, hprocesses]

/-- Process 20 is gone by the time its file is read. -/
def smallEntries : List Entry := [(1, some 0), (20, none), (7, some 1)]

/-- The names in `/proc`, not all of them of processes. -/
def smallNames : List CStr :=
  [cstr ".".toList, cstr "1".toList, cstr "self".toList, cstr "20".toList, cstr "7".toList]

/-- The `status` files. -/
def smallFiles (path : CStr) : Option (List UInt8) :=
  if path = statusPath (decimal 1) then some (statusFile [cstr "Name:\tinit".toList] 1 0 [])
  else if path = statusPath (decimal 7) then
    some (statusFile [cstr "Name:\tsh".toList] 7 1 (cstr "TracerPid:\t0\n".toList))
  else none

theorem shows_small : Shows smallFiles smallNames smallEntries where
  names_eq := by decide
  pid_lt := by decide
  gone := by
    intro pid hpid
    obtain rfl : pid = 20 := by simpa [smallEntries] using hpid
    decide
  status := by
    intro pid ppid h
    have hcases : (pid = 1 ∧ ppid = 0) ∨ (pid = 7 ∧ ppid = 1) := by
      simpa [smallEntries] using h
    rcases hcases with ⟨rfl, rfl⟩ | ⟨rfl, rfl⟩
    · refine ⟨by decide, [cstr "Name:\tinit".toList], [], fun l hl => ?_, rfl⟩
      rw [List.mem_singleton.mp hl]
      exact ⟨by decide, by decide, by decide, by decide⟩
    · refine ⟨by decide, [cstr "Name:\tsh".toList], cstr "TracerPid:\t0\n".toList,
        fun l hl => ?_, rfl⟩
      rw [List.mem_singleton.mp hl]
      exact ⟨by decide, by decide, by decide, by decide⟩

theorem ordinary_small : Ordinary (live smallEntries) where
  distinct := by decide
  pid_lt := by decide
  pos := by decide
  init := by decide
  few := by decide
  few_children q := (List.length_filter_le _ _).trans (by decide)

/-- A system with these files. -/
def smallEnv : Env := ⟨some smallNames, smallFiles, true⟩

end Jyyos.Pstree
