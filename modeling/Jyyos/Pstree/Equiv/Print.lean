import Jyyos.Algorithm.Equiv.PreorderWalk
import Jyyos.Pstree.Basic
import Jyyos.Qsort
import Mathlib.Data.List.Perm.Subperm
import Mathlib.Data.List.TakeWhile

/-!
# `pstree` prints the tree below the root

The links of a process table may lead out of the table or round in circles, and
`PrintProcessTree` keeps no record of what it has printed.  That it returns, and prints nothing
twice, comes from the root: if the parent of the root is not in the table, and no two entries have
the same identifier, then the entries below the root form a tree.

`printProcessTree` is the preorder walk of `Algorithm/PreorderWalk.lean` over `children`, with the
path replaced by its length (`printProcessTree_of_walk`).  The walk's rules then give the result,
`printProcessTree_spec`: one line for each chain of parents that leads to the root, indented by the
length of the chain, in the lexicographic order of the chains read from the root down.
-/

namespace Jyyos.Pstree

open PreorderWalk

/-! ### The tables considered -/

/-- A process table as a scan of a live system leaves it: the identifiers are distinct decimal
numbers (`num` gives the number of an entry) and no process has too many children.  The parents
are arbitrary. -/
structure ProcessTree.WellFormed (tree : ProcessTree) (num : ProcessNode → ℕ) : Prop where
  distinct : (tree.processes.map ProcessNode.pid).Nodup
  canonical : ∀ p ∈ tree.processes, p.pid = decimal (num p)
  num_lt : ∀ p ∈ tree.processes, num p < 2 ^ 31
  few : ∀ s : CStr, (tree.processes.filter fun p => p.ppid == s).length ≤ maxChildren

/-- `c` is a chain of processes, each the child of the next, that leads up to `root`. -/
structure ProcessTree.LeadsTo (tree : ProcessTree) (root : ProcessNode) (c : List ProcessNode) :
    Prop where
  chain : c.IsChain fun p q => p.ppid = q.pid
  last : c.getLast? = some root
  mem : ∀ p ∈ c, p ∈ tree.processes

section WellFormed

variable {tree : ProcessTree} {num : ProcessNode → ℕ} (hwf : tree.WellFormed num)
include hwf

theorem ProcessTree.WellFormed.eq_of_pid_eq {p q : ProcessNode} (hp : p ∈ tree.processes)
    (hq : q ∈ tree.processes) (h : p.pid = q.pid) : p = q :=
  List.inj_on_of_nodup_map hwf.distinct hp hq h

theorem ProcessTree.WellFormed.findProcessByPid_eq {p : ProcessNode} (hp : p ∈ tree.processes) :
    tree.findProcessByPid p.pid = some p := by
  cases h : tree.findProcessByPid p.pid with
  | none =>
    have := List.find?_eq_none.mp h p hp
    simp at this
  | some q =>
    have hq : q.pid = p.pid := by simpa using List.find?_some h
    rw [hwf.eq_of_pid_eq (List.mem_of_find?_eq_some h) hp hq]

theorem ProcessTree.WellFormed.getChildren_eq (s : CStr) :
    tree.getChildren s = some (tree.processes.filter fun p => p.ppid == s) :=
  if_pos (hwf.few s)

/-- On the entries of the table the comparison is that of the numbers. -/
theorem ProcessTree.WellFormed.comparePids_eq {p q : ProcessNode} (hp : p ∈ tree.processes)
    (hq : q ∈ tree.processes) : comparePids p q = (num p : ℤ) - num q := by
  have hpn := hwf.num_lt p hp
  have hqn := hwf.num_lt q hq
  rw [comparePids, hwf.canonical p hp, hwf.canonical q hq, atoi_decimal hpn, atoi_decimal hqn]
  apply toInt_of_lt <;> omega

theorem ProcessTree.WellFormed.num_injOn {p q : ProcessNode} (hp : p ∈ tree.processes)
    (hq : q ∈ tree.processes) (h : num p = num q) : p = q := by
  apply hwf.eq_of_pid_eq hp hq
  rw [hwf.canonical p hp, hwf.canonical q hq, h]

theorem ProcessTree.WellFormed.consistent {l : List ProcessNode} (hl : l ⊆ tree.processes) :
    Consistent comparePids l where
  antisymm p hp q hq := by
    rw [hwf.comparePids_eq (hl hp) (hl hq), hwf.comparePids_eq (hl hq) (hl hp)]
    omega
  trans p hp q hq t ht := by
    rw [hwf.comparePids_eq (hl hp) (hl hq), hwf.comparePids_eq (hl hq) (hl ht),
      hwf.comparePids_eq (hl hp) (hl ht)]
    omega

end WellFormed

/-! ### The children of a process -/

section Children

variable {tree : ProcessTree} {num : ProcessNode → ℕ}
  {qsort : (ProcessNode → ProcessNode → ℤ) → List ProcessNode → List ProcessNode}

/-- The children of an entry in the order in which they are printed. -/
def ProcessTree.children (tree : ProcessTree)
    (qsort : (ProcessNode → ProcessNode → ℤ) → List ProcessNode → List ProcessNode)
    (p : ProcessNode) : List ProcessNode :=
  if p ∈ tree.processes then
    qsort comparePids (tree.processes.filter fun q => q.ppid == p.pid)
  else []

variable (hwf : tree.WellFormed num) (hq : IsQsort qsort)
include hwf hq

theorem mem_children {p q : ProcessNode} :
    q ∈ tree.children qsort p ↔ p ∈ tree.processes ∧ q ∈ tree.processes ∧ q.ppid = p.pid := by
  rw [ProcessTree.children]
  by_cases hp : p ∈ tree.processes
  · rw [if_pos hp, (hq.perm _ _ (hwf.consistent (List.filter_subset_self _))).mem_iff]
    simp [hp]
  · simp [hp]

theorem uniqueParent_children : UniqueParent (tree.children qsort) := by
  intro a b c ha hb
  have ha' := (mem_children hwf hq).mp ha
  have hb' := (mem_children hwf hq).mp hb
  exact hwf.eq_of_pid_eq ha'.1 hb'.1 (ha'.2.2.symm.trans hb'.2.2)

/-- **Siblings are printed in the order of their numbers.** -/
theorem pairwise_children (p : ProcessNode) :
    (tree.children qsort p).Pairwise fun a b => num a < num b := by
  rw [ProcessTree.children]
  by_cases hp : p ∈ tree.processes
  · rw [if_pos hp]
    have hcons := hwf.consistent (l := tree.processes.filter fun q => q.ppid == p.pid)
      (List.filter_subset_self _)
    have hperm := hq.perm _ _ hcons
    have hnodup : tree.processes.Nodup := hwf.distinct.of_map
    have hne := (hperm.nodup_iff.mpr (hnodup.filter _))
    -- sorted gives `≤`; the numbers are distinct because the entries are
    refine ((hq.sorted _ _ hcons).and hne).imp_of_mem ?_
    rintro a b ha hb ⟨hle, hab⟩
    have ha' := List.mem_of_mem_filter (hperm.mem_iff.mp ha)
    have hb' := List.mem_of_mem_filter (hperm.mem_iff.mp hb)
    rw [hwf.comparePids_eq ha' hb'] at hle
    have hnum : num a ≠ num b := fun h => hab (hwf.num_injOn ha' hb' h)
    omega
  · rw [if_neg hp]
    exact List.Pairwise.nil

/-- The ways of the walk are the chains of parents. -/
theorem below_iff_leadsTo {root : ProcessNode} (hroot : root ∈ tree.processes)
    {c : List ProcessNode} :
    Below (tree.children qsort) [root] c ↔ tree.LeadsTo root c := by
  constructor
  · intro h
    induction h with
    | refl => exact ⟨List.IsChain.singleton _, rfl, by simpa using hroot⟩
    | @step a b c h hb ih =>
      have hb' := (mem_children hwf hq).mp hb
      refine ⟨List.isChain_cons_cons.mpr ⟨hb'.2.2, ih.chain⟩, ?_, ?_⟩
      · rw [List.getLast?_cons_cons]
        exact ih.last
      · intro p hp
        rcases List.mem_cons.mp hp with rfl | hp'
        · exact hb'.2.1
        · exact ih.mem p hp'
  · intro h
    induction c with
    | nil => cases h.last
    | cons b c ih =>
      cases c with
      | nil =>
        have hlast : b = root := by simpa using h.last
        rw [hlast]
        exact .refl
      -- the chain without its first entry leads to the root, and `b` is a child of the next
      | cons a c =>
        have hchain := List.isChain_cons_cons.mp h.chain
        have hlast := h.last
        rw [List.getLast?_cons_cons] at hlast
        have hbelow := ih ⟨hchain.2, hlast, fun p hp => h.mem p (List.mem_cons_of_mem _ hp)⟩
        refine hbelow.step ((mem_children hwf hq).mpr ⟨?_, ?_, hchain.1⟩)
        · exact h.mem a (List.mem_cons_of_mem _ List.mem_cons_self)
        · exact h.mem b List.mem_cons_self

end Children

/-! ### Printing is walking -/

/-- The line printed for the process at the beginning of a chain. -/
def chainLine (fopen : CStr → Option (List UInt8)) (showPids : Bool) :
    List ProcessNode → List UInt8
  | [] => []
  | p :: above => line fopen showPids above.length p.pid

/-- **`PrintProcessTree` prints the lines of the places that the walk visits.** -/
theorem printProcessTree_of_walk {tree : ProcessTree} {num : ProcessNode → ℕ}
    (hwf : tree.WellFormed num)
    {qsort : (ProcessNode → ProcessNode → ℤ) → List ProcessNode → List ProcessNode}
    (hq : IsQsort qsort) (fopen : CStr → Option (List UInt8)) (showPids : Bool) (fuel : ℕ)
    {path : List ProcessNode} {p : ProcessNode} {cs : List (List ProcessNode)}
    (hp : p ∈ tree.processes) (h : walk (tree.children qsort) fuel path p = some cs) :
    printProcessTree fopen qsort tree showPids fuel p.pid path.length =
      some (cs.flatMap (chainLine fopen showPids)) := by
  induction fuel generalizing path p cs with
  | zero => cases h
  | succ fuel ih =>
    obtain ⟨below, hbelow, rfl⟩ := walk_succ.mp h
    have hchildren : qsort comparePids (tree.processes.filter fun q => q.ppid == p.pid) =
        tree.children qsort p := (if_pos hp).symm
    -- each child prints what the walk from it visits
    have hmap : (tree.children qsort p).map (fun child =>
        printProcessTree fopen qsort tree showPids fuel child.pid (path.length + 1)) =
        (below.map fun l => l.flatMap (chainLine fopen showPids)).map some := by
      calc (tree.children qsort p).map (fun child =>
            printProcessTree fopen qsort tree showPids fuel child.pid (path.length + 1))
          = ((tree.children qsort p).map (walk (tree.children qsort) fuel (p :: path))).map
              (Option.map fun l => l.flatMap (chainLine fopen showPids)) := by
            rw [List.map_map]
            apply List.map_congr_left
            intro child hchild
            obtain ⟨l, -, hl⟩ := exists_result hbelow hchild
            rw [Function.comp_apply, hl, Option.map_some]
            exact ih ((mem_children hwf hq).mp hchild).2.1 hl
        _ = (below.map fun l => l.flatMap (chainLine fopen showPids)).map some := by
            rw [hbelow, List.map_map, List.map_map]
            rfl
    rw [printProcessTree, hwf.findProcessByPid_eq hp, hwf.getChildren_eq]
    simp only [bind, Option.bind_some, hchildren, mapM_eq_some_iff.mpr hmap, pure,
      List.flatMap_cons, chainLine]
    rw [List.flatMap_def, List.map_flatten, List.flatten_flatten, List.map_map]
    rfl

/-! ### The tree that is printed -/

theorem ProcessTree.exists_of_findRootProcess {tree : ProcessTree} {pid : CStr}
    (h : tree.findRootProcess = some pid) : ∃ root ∈ tree.processes, root.pid = pid := by
  rw [findRootProcess] at h
  split at h
  · rename_i initProcess hfind
    exact ⟨initProcess, List.mem_of_find?_eq_some hfind, by simpa using h⟩
  · obtain ⟨root, hfind, hpid⟩ := Option.map_eq_some_iff.mp h
    exact ⟨root, List.mem_of_find?_eq_some hfind, hpid⟩

/-- **`pstree` prints the tree below the root.**  From the root that `FindRootProcess` chooses,
`PrintProcessTree` returns, and its output is one line for each chain of parents that leads to the
root: the chains begin at different entries, and they come in the order of the numbers on the way
down from the root. -/
theorem printProcessTree_spec {tree : ProcessTree} {num : ProcessNode → ℕ}
    (hwf : tree.WellFormed num)
    {qsort : (ProcessNode → ProcessNode → ℤ) → List ProcessNode → List ProcessNode}
    (hq : IsQsort qsort) {rootPid : CStr} (hroot : tree.findRootProcess = some rootPid)
    (hppid : ∀ root ∈ tree.processes, root.pid = rootPid →
      ∀ p ∈ tree.processes, p.pid ≠ root.ppid)
    (fopen : CStr → Option (List UInt8)) (showPids : Bool) :
    ∃ root ∈ tree.processes, root.pid = rootPid ∧ ∃ chains : List (List ProcessNode),
      (∀ fuel, tree.processes.length < fuel →
        printProcessTree fopen qsort tree showPids fuel rootPid 0 =
          some (chains.flatMap (chainLine fopen showPids))) ∧
      (∀ c, c ∈ chains ↔ tree.LeadsTo root c) ∧
      (chains.map List.head?).Nodup ∧
      chains.Pairwise fun c d => List.Lex (fun p q => num p < num q) c.reverse d.reverse := by
  obtain ⟨root, hmem, rfl⟩ := ProcessTree.exists_of_findRootProcess hroot
  have hu := uniqueParent_children hwf hq
  -- nothing leads back to the root, so no chain can go round
  have hnochild : ∀ a, root ∉ tree.children qsort a := by
    intro a ha
    have ha' := (mem_children hwf hq).mp ha
    exact hppid root hmem rfl a ha'.1 ha'.2.2.symm
  -- a chain visits no entry twice, so it is no longer than the table
  have hlen : ∀ c, Below (tree.children qsort) [root] c → c.length ≤ tree.processes.length := by
    intro c hc
    have hsub : c ⊆ tree.processes := ((below_iff_leadsTo hwf hq hmem).mp hc).mem
    exact (List.Nodup.subperm (hc.nodup hu hnochild) hsub).length_le
  obtain ⟨chains, hwalk⟩ := walk_isSome hlen (tree.processes.length + 1) [] root .refl (by simp)
  have hsorted := pairwise_walk (pairwise_children hwf hq) hwalk
  have hmemwalk := mem_walk hwalk
  refine ⟨root, hmem, rfl, chains, ?_, ?_, ?_, hsorted⟩
  · intro fuel hfuel
    exact printProcessTree_of_walk hwf hq fopen showPids fuel hmem (walk_mono hfuel hwalk)
  · intro c
    rw [hmemwalk, below_iff_leadsTo hwf hq hmem]
  · -- the chains are different, and a chain is determined by where it begins
    have hne : chains.Nodup := by
      refine hsorted.imp ?_
      rintro c _ hlex rfl
      exact List.lex_irrefl (fun p => lt_irrefl (num p)) _ hlex
    refine List.Nodup.map_on ?_ hne
    intro c hc d hd hhead
    have hc' := (hmemwalk c).mp hc
    have hd' := (hmemwalk d).mp hd
    cases c with
    | nil => exact absurd rfl (hc'.ne_nil (List.cons_ne_nil _ _))
    | cons a c =>
      cases d with
      | nil => exact absurd rfl (hd'.ne_nil (List.cons_ne_nil _ _))
      | cons b d =>
        cases hhead
        rw [hc'.eq_of_head hu hnochild hd']

/-- A table with a cycle (`20` and `21`) and an entry whose parent has gone (`30`). -/
def racyTree : ProcessTree where
  processes :=
    [⟨decimal 20, decimal 21⟩, ⟨decimal 1, decimal 0⟩, ⟨decimal 10, decimal 1⟩,
      ⟨decimal 9, decimal 1⟩, ⟨decimal 21, decimal 20⟩, ⟨decimal 7, decimal 10⟩,
      ⟨decimal 30, decimal 99⟩]
  count_le := by decide

theorem racyTree_wellFormed : racyTree.WellFormed fun p => digitsValue p.pid where
  distinct := by decide
  canonical := by decide
  num_lt := by decide
  few _ := (List.length_filter_le _ _).trans (by decide)

theorem printProcessTree_spec_racyTree :
    racyTree.findRootProcess = some (decimal 1) ∧
    ∃ root ∈ racyTree.processes, root.pid = decimal 1 ∧ ∃ chains : List (List ProcessNode),
      (∀ fuel, 7 < fuel →
        printProcessTree (fun _ => none)
          (fun cmp l => l.insertionSort fun a b => cmp a b ≤ 0) racyTree true fuel (decimal 1) 0 =
          some (chains.flatMap (chainLine (fun _ => none) true))) ∧
      (∀ c, c ∈ chains ↔ racyTree.LeadsTo root c) ∧
      (chains.map List.head?).Nodup ∧
      chains.Pairwise fun c d =>
        List.Lex (fun p q => digitsValue p.pid < digitsValue q.pid) c.reverse d.reverse :=
  ⟨by decide, printProcessTree_spec racyTree_wellFormed insertionSort_isQsort (by decide)
    (by decide) _ true⟩

example :
    printProcessTree (fun _ => none) (fun cmp l => l.insertionSort fun a b => cmp a b ≤ 0) racyTree
      true 8 (decimal 1) 0 =
    some (cstr "unknown(1)\n  unknown(9)\n  unknown(10)\n    unknown(7)\n".toList) := by
  decide

end Jyyos.Pstree
