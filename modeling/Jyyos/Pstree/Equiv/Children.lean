import Jyyos.Pstree.Children
import Jyyos.Pstree.Equiv.Print

/-!
# When the array `children` is large enough

The table has room for 10000 entries and the array for 1000, and nothing stands between the two:
`GetChildren` writes at `0, …, k - 1` for the `k` entries that name its argument as their parent
(`fst_childWrites`).

Which calls a run makes depends on the order of the siblings when the links run in circles, since a
call that does not return keeps its younger siblings from being looked at.  `Entered` says it in
terms of the table: the root is entered, and below an entered process each child is, up to and
including the first from which the descent does not end.  The machine makes the calls that are
entered and no others, so `writes_lt_iff`: all writes of a run are within the array iff every
process that is entered has at most 1000 children.

* One direction is an invariant of the machine (`Ok`): every active frame is entered, and the
  children that it has dealt with are such that the descent from them ends.
* For the other, a call from which the descent ends comes back (`reaches_return`), so the machine
  gets to every process that is entered (`reaches_entered`).
-/

namespace Jyyos.Pstree

open Machine

/-! ### The loop of `GetChildren` -/

theorem snd_getChildrenLoop (parentPid : CStr) (ps : List ProcessNode) : ∀ k,
    (getChildrenLoop parentPid ps k).map Prod.snd = ps.filter fun p => p.ppid == parentPid := by
  induction ps with
  | nil => intro k; rfl
  | cons p ps ih =>
    intro k
    rw [getChildrenLoop]
    by_cases h : (p.ppid == parentPid) = true
    · rw [if_pos h, List.filter_cons, if_pos h, List.map_cons, ih]
    · rw [if_neg h, List.filter_cons, if_neg h, ih]

theorem fst_getChildrenLoop (parentPid : CStr) (ps : List ProcessNode) : ∀ k,
    (getChildrenLoop parentPid ps k).map Prod.fst =
      List.range' k (ps.filter fun p => p.ppid == parentPid).length := by
  induction ps with
  | nil => intro k; rfl
  | cons p ps ih =>
    intro k
    rw [getChildrenLoop]
    by_cases h : (p.ppid == parentPid) = true
    · rw [if_pos h, List.filter_cons, if_pos h, List.map_cons, ih, List.length_cons,
        List.range'_succ]
    · rw [if_neg h, List.filter_cons, if_neg h, ih]

/-- The entries whose parent is `pid`. -/
def ProcessTree.childrenOf (tree : ProcessTree) (pid : CStr) : List ProcessNode :=
  tree.processes.filter fun p => p.ppid == pid

theorem ProcessTree.snd_childWrites (tree : ProcessTree) (pid : CStr) :
    (tree.childWrites pid).map Prod.snd = tree.childrenOf pid := snd_getChildrenLoop ..

/-- **`GetChildren` writes at the indices below the number of the children.** -/
theorem ProcessTree.fst_childWrites (tree : ProcessTree) (pid : CStr) :
    (tree.childWrites pid).map Prod.fst = List.range (tree.childrenOf pid).length := by
  rw [childWrites, fst_getChildrenLoop, List.range_eq_range']
  rfl

section Calls

variable (qsort : (ProcessNode → ProcessNode → ℤ) → List ProcessNode → List ProcessNode)
  (tree : ProcessTree)

/-- The arguments of the calls that the call for `pid` makes. -/
def ProcessTree.callees (pid : CStr) : List CStr :=
  if (tree.findProcessByPid pid).isSome then
    (qsort comparePids (tree.childrenOf pid)).map ProcessNode.pid
  else []

/-- The descent from `pid` ends. -/
def ProcessTree.Ends (pid : CStr) : Prop := Acc (fun s t => s ∈ tree.callees qsort t) pid

/-- The calls that are made when `PrintProcessTree` is called for `root`. -/
inductive ProcessTree.Entered (root : CStr) : CStr → Prop
  | root : Entered root root
  | child {pid child : CStr} {before after : List CStr} (parent : Entered root pid)
      (split : tree.callees qsort pid = before ++ child :: after)
      (ends : ∀ b ∈ before, tree.Ends qsort b) : Entered root child

/-- The condition on a table and a root: no process that is entered has too many children. -/
def ProcessTree.Roomy (root : CStr) : Prop :=
  ∀ pid, tree.Entered qsort root pid → (tree.findProcessByPid pid).isSome →
    (tree.childrenOf pid).length ≤ maxChildren

end Calls

/-! ### The steps of the machine -/

/-- All writes so far are within the array. -/
def State.InBounds (s : State) : Prop := ∀ i ∈ s.writes, i < maxChildren

section Steps

variable {qsort : (ProcessNode → ProcessNode → ℤ) → List ProcessNode → List ProcessNode}
  {tree : ProcessTree}

theorem callees_of_isSome {pid : CStr} (h : (tree.findProcessByPid pid).isSome) :
    tree.callees qsort pid = (qsort comparePids (tree.childrenOf pid)).map ProcessNode.pid :=
  if_pos h

/-- **The cases of a step.** -/
theorem step_cases {s t : State} (h : step qsort tree s = some t) :
    (∃ pid, s.call = some pid ∧ tree.findProcessByPid pid = none ∧ t = ⟨none, s.stack, s.writes⟩) ∨
    (∃ pid, s.call = some pid ∧ (tree.findProcessByPid pid).isSome ∧
      t = ⟨none, ⟨pid, tree.callees qsort pid⟩ :: s.stack,
        s.writes ++ List.range (tree.childrenOf pid).length⟩) ∨
    (∃ pid stack, s.call = none ∧ s.stack = ⟨pid, []⟩ :: stack ∧ t = ⟨none, stack, s.writes⟩) ∨
    (∃ pid c todo stack, s.call = none ∧ s.stack = ⟨pid, c :: todo⟩ :: stack ∧
      t = ⟨some c, ⟨pid, todo⟩ :: stack, s.writes⟩) := by
  obtain ⟨call, stack, writes⟩ := s
  unfold step at h
  split_ifs at h
  cases call with
  | some pid =>
    simp only at h
    cases hfind : tree.findProcessByPid pid with
    | none =>
      rw [hfind] at h
      exact Or.inl ⟨pid, rfl, hfind, (Option.some.inj h).symm⟩
    | some p =>
      have hsome : (tree.findProcessByPid pid).isSome := by rw [hfind]; rfl
      rw [hfind] at h
      simp only [tree.snd_childWrites, tree.fst_childWrites, Option.some.injEq] at h
      rw [← callees_of_isSome hsome] at h
      exact Or.inr (Or.inl ⟨pid, rfl, hsome, h.symm⟩)
  | none =>
    match stack with
    | [] => cases h
    | ⟨pid, []⟩ :: stack =>
      exact Or.inr (Or.inr (Or.inl ⟨pid, stack, rfl, rfl, (Option.some.inj h).symm⟩))
    | ⟨pid, c :: todo⟩ :: stack =>
      exact Or.inr (Or.inr (Or.inr ⟨pid, c, todo, stack, rfl, rfl, (Option.some.inj h).symm⟩))

section InBounds

variable {stack : List Frame} {w : List ℕ} (hw : ∀ i ∈ w, i < maxChildren)
include hw

theorem not_overflow : (w.any (maxChildren ≤ ·)) = false := by
  rw [List.any_eq_false]
  intro i hi
  simpa using hw i hi

theorem step_absent {pid : CStr} (h : tree.findProcessByPid pid = none) :
    step qsort tree ⟨some pid, stack, w⟩ = some ⟨none, stack, w⟩ := by
  simp [step, not_overflow hw, h]

theorem step_enter {pid : CStr} (h : (tree.findProcessByPid pid).isSome) :
    step qsort tree ⟨some pid, stack, w⟩ = some ⟨none, ⟨pid, tree.callees qsort pid⟩ :: stack,
      w ++ List.range (tree.childrenOf pid).length⟩ := by
  obtain ⟨p, hp⟩ := Option.isSome_iff_exists.mp h
  simp [step, not_overflow hw, hp, tree.snd_childWrites, tree.fst_childWrites, callees_of_isSome h]

theorem step_return {pid : CStr} :
    step qsort tree ⟨none, ⟨pid, []⟩ :: stack, w⟩ = some ⟨none, stack, w⟩ := by
  simp [step, not_overflow hw]

theorem step_next {pid c : CStr} {todo : List CStr} :
    step qsort tree ⟨none, ⟨pid, c :: todo⟩ :: stack, w⟩ =
      some ⟨some c, ⟨pid, todo⟩ :: stack, w⟩ := by
  simp [step, not_overflow hw]

end InBounds

end Steps

/-! ### The calls of a run are entered -/

section Invariant

variable (qsort : (ProcessNode → ProcessNode → ℤ) → List ProcessNode → List ProcessNode)
  (tree : ProcessTree) (root : CStr)

/-- The frames below a call: `current` is the argument of the call that runs on top of them, if one
does.  Each frame is entered; its children are those that it has dealt with, from which the descent
ends, the one that runs, and those left to do. -/
def Frames : Option CStr → List Frame → Prop
  | current, [] => ∀ pid, current = some pid → pid = root
  | current, f :: fs => tree.Entered qsort root f.rootPid ∧
      (tree.findProcessByPid f.rootPid).isSome ∧
      (∃ before, tree.callees qsort f.rootPid = before ++ current.toList ++ f.todo ∧
        ∀ b ∈ before, tree.Ends qsort b) ∧
      Frames (some f.rootPid) fs

/-- The invariant of the machine. -/
structure Ok (s : State) : Prop where
  frames : Frames qsort tree root s.call s.stack
  inBounds : s.InBounds

variable {qsort tree root}

/-- The call that runs is entered. -/
theorem Frames.entered {pid : CStr} {stack : List Frame}
    (h : Frames qsort tree root (some pid) stack) : tree.Entered qsort root pid := by
  cases stack with
  | nil =>
    rw [h pid rfl]
    exact .root
  | cons f fs =>
    obtain ⟨hf, -, ⟨before, hsplit, hends⟩, -⟩ := h
    rw [List.append_assoc] at hsplit
    exact .child hf hsplit hends

/-- A call from which the descent ends can return. -/
theorem Frames.return {pid : CStr} {stack : List Frame}
    (h : Frames qsort tree root (some pid) stack) (hpid : tree.Ends qsort pid) :
    Frames qsort tree root none stack := by
  cases stack with
  | nil =>
    intro p hp
    cases hp
  | cons f fs =>
    obtain ⟨hf, hfound, ⟨before, hsplit, hends⟩, hfs⟩ := h
    refine ⟨hf, hfound, ⟨before ++ [pid], ?_, ?_⟩, hfs⟩
    · rw [hsplit]
      simp
    · intro b hb
      rcases List.mem_append.mp hb with hb | hb
      · exact hends b hb
      · rw [List.mem_singleton.mp hb]
        exact hpid

theorem ends_of_absent {pid : CStr} (h : tree.findProcessByPid pid = none) :
    tree.Ends qsort pid := by
  refine Acc.intro _ fun s hs => ?_
  rw [ProcessTree.callees, h] at hs
  cases hs

theorem Ok.step (hroomy : tree.Roomy qsort root) {s t : State} (h : Ok qsort tree root s)
    (hst : Pstree.step qsort tree s = some t) : Ok qsort tree root t := by
  obtain ⟨hframes, hbound⟩ := h
  rcases step_cases hst with ⟨pid, hcall, hfind, rfl⟩ | ⟨pid, hcall, hfound, rfl⟩ |
    ⟨pid, stack, hcall, hstack, rfl⟩ | ⟨pid, c, todo, stack, hcall, hstack, rfl⟩
  · rw [hcall] at hframes
    exact ⟨hframes.return (ends_of_absent hfind), hbound⟩
  · rw [hcall] at hframes
    refine ⟨⟨hframes.entered, hfound, ⟨[], rfl, fun b hb => nomatch hb⟩, hframes⟩, ?_⟩
    intro i hi
    rcases List.mem_append.mp hi with hi | hi
    · exact hbound i hi
    · exact lt_of_lt_of_le (List.mem_range.mp hi) (hroomy pid hframes.entered hfound)
  · rw [hcall, hstack] at hframes
    obtain ⟨-, -, ⟨before, hsplit, hends⟩, hfs⟩ := hframes
    -- all children are dealt with, so the descent from the process itself ends
    refine ⟨hfs.return (Acc.intro _ fun b hb => hends b ?_), hbound⟩
    rw [hsplit] at hb
    simpa using hb
  · rw [hcall, hstack] at hframes
    obtain ⟨hf, hfound, ⟨before, hsplit, hends⟩, hfs⟩ := hframes
    refine ⟨⟨hf, hfound, ⟨before, ?_, hends⟩, hfs⟩, hbound⟩
    rw [hsplit]
    simp

end Invariant

/-! ### What is entered is called -/

section Calls

variable {qsort : (ProcessNode → ProcessNode → ℤ) → List ProcessNode → List ProcessNode}
  {tree : ProcessTree} {root : CStr}
  (hsafe : ∀ s, Reaches (step qsort tree) (.start root) s → s.InBounds)

/-- In the run from the root, a call for `pid` comes back. -/
def Returns (qsort : (ProcessNode → ProcessNode → ℤ) → List ProcessNode → List ProcessNode)
    (tree : ProcessTree) (root pid : CStr) : Prop :=
  ∀ stack w, Reaches (step qsort tree) (.start root) ⟨some pid, stack, w⟩ →
    ∃ w', Reaches (step qsort tree) (.start root) ⟨none, stack, w'⟩

include hsafe

/-- The loop of a frame gets past children whose calls come back. -/
theorem reaches_after {pid : CStr} {stack : List Frame} (before after : List CStr)
    (hreturns : ∀ b ∈ before, Returns qsort tree root b) : ∀ w,
    Reaches (step qsort tree) (.start root) ⟨none, ⟨pid, before ++ after⟩ :: stack, w⟩ →
    ∃ w', Reaches (step qsort tree) (.start root) ⟨none, ⟨pid, after⟩ :: stack, w'⟩ := by
  induction before with
  | nil => exact fun w h => ⟨w, h⟩
  | cons b before ih =>
    intro w h
    have hcall := h.trans (.single (step_next (hsafe _ h)))
    obtain ⟨w', h'⟩ := hreturns b List.mem_cons_self _ _ hcall
    exact ih (fun c hc => hreturns c (List.mem_cons_of_mem _ hc)) w' h'

/-- **A call from which the descent ends comes back.** -/
theorem reaches_return {pid : CStr} (h : tree.Ends qsort pid) : Returns qsort tree root pid := by
  induction h with
  | intro pid _ ih =>
    intro stack w hreach
    cases hfind : tree.findProcessByPid pid with
    | none => exact ⟨w, hreach.trans (.single (step_absent (hsafe _ hreach) hfind))⟩
    | some p =>
      have henter := hreach.trans
        (.single (step_enter (hsafe _ hreach) (by rw [hfind]; rfl)))
      obtain ⟨w', h'⟩ := reaches_after hsafe (tree.callees qsort pid) [] ih _
        (by rw [List.append_nil]; exact henter)
      exact ⟨w', h'.trans (.single (step_return (hsafe _ h')))⟩

/-- **Every process that is entered is called.** -/
theorem reaches_entered {pid : CStr} (h : tree.Entered qsort root pid) :
    ∃ stack w, Reaches (step qsort tree) (.start root) ⟨some pid, stack, w⟩ := by
  induction h with
  | root => exact ⟨[], [], Relation.ReflTransGen.refl⟩
  | @child pid c before after _ hsplit hends ih =>
    obtain ⟨stack, w, hreach⟩ := ih
    have hfound : (tree.findProcessByPid pid).isSome := by
      by_contra hnot
      rw [ProcessTree.callees, if_neg hnot] at hsplit
      exact absurd hsplit (by simp)
    have henter := hreach.trans (.single (step_enter (hsafe _ hreach) hfound))
    rw [hsplit] at henter
    obtain ⟨w', h'⟩ := reaches_after hsafe before (c :: after)
      (fun b hb => reaches_return hsafe (hends b hb)) _ henter
    exact ⟨_, w', h'.trans (.single (step_next (hsafe _ h')))⟩

end Calls

/-- **When the array is large enough**: all writes of `GetChildren` in a run from `root` are within
the array iff every process that is entered has at most 1000 children. -/
theorem writes_lt_iff
    (qsort : (ProcessNode → ProcessNode → ℤ) → List ProcessNode → List ProcessNode)
    (tree : ProcessTree) (root : CStr) :
    (∀ s, Reaches (step qsort tree) (.start root) s → ∀ i ∈ s.writes, i < maxChildren) ↔
      tree.Roomy qsort root := by
  constructor
  · intro hsafe pid hpid hfound
    obtain ⟨stack, w, hreach⟩ := reaches_entered hsafe hpid
    have henter := hreach.trans (.single (step_enter (hsafe _ hreach) hfound))
    by_contra hmany
    -- the write at index 1000
    have hlt := hsafe _ henter maxChildren
      (List.mem_append_right _ (List.mem_range.mpr (not_le.mp hmany)))
    exact lt_irrefl _ hlt
  · intro hroomy s hs
    have hstart : Ok qsort tree root (.start root) := by
      refine ⟨fun pid hpid => (Option.some.inj hpid).symm, ?_⟩
      intro i hi
      cases hi
    exact (hs.invariant hstart fun _ _ => Ok.step hroomy).inBounds

/-- A table with 1001 children of the process `1`. -/
def crowdedTree : ProcessTree where
  processes := ⟨decimal 1, decimal 0⟩ ::
    (List.range 1001).map fun i => ⟨decimal (i + 2), decimal 1⟩
  count_le := by simp [maxProcesses]

theorem length_childrenOf_crowdedTree : (crowdedTree.childrenOf (decimal 1)).length = 1001 := by
  have hall : ((List.range 1001).map fun i => (⟨decimal (i + 2), decimal 1⟩ : ProcessNode)).filter
      (fun p => p.ppid == decimal 1) =
      (List.range 1001).map fun i => ⟨decimal (i + 2), decimal 1⟩ := by
    rw [List.filter_eq_self]
    intro p hp
    obtain ⟨i, -, rfl⟩ := List.mem_map.mp hp
    exact beq_self_eq_true _
  rw [ProcessTree.childrenOf, crowdedTree, List.filter_cons, if_neg (by decide), hall,
    List.length_map, List.length_range]

/-- The call for the process `1` of that table writes behind the end of the array. -/
theorem crowdedTree_overflow :
    ¬ ∀ s, Reaches (step (fun cmp l => l.insertionSort fun a b => cmp a b ≤ 0) crowdedTree)
        (.start (decimal 1)) s → ∀ i ∈ s.writes, i < maxChildren := by
  intro h
  have hfound : (crowdedTree.findProcessByPid (decimal 1)).isSome := by
    rw [ProcessTree.findProcessByPid, crowdedTree, List.find?_cons_of_pos (by decide)]
    rfl
  have hwrite : maxChildren ∈ [] ++ List.range (crowdedTree.childrenOf (decimal 1)).length := by
    rw [length_childrenOf_crowdedTree, List.nil_append, List.mem_range]
    decide
  have hlt := h _ (.single (step_enter (by intro i hi; cases hi) hfound)) maxChildren hwrite
  exact lt_irrefl _ hlt

end Jyyos.Pstree
