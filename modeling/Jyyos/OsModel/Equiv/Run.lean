import Jyyos.OsModel.Basic
import Mathlib.Data.List.Nodup
import Mathlib.Logic.Function.Iterate

/-!
# Processes do not disturb each other

The events of a run are compared with what every process does when it runs alone (`alone`): it is
resumed with the bits that its own reads were answered with, and with `None` after its other calls.
`Inv` relates the operating system to the events so far, process by process; a round keeps it
(`inv_round`), and so does every run (`inv_rounds`).
-/

namespace Jyyos.OsModel

variable {S F A : Type}

/-! ### A process alone -/

/-- What became of a process. -/
inductive Status (S : Type) where
  | running (func : S) (retval : Option Bool)
  | finished
  | raised
  /-- It reads, but there is no bit to answer it with. -/
  | starved
deriving DecidableEq, Repr

/-- A process alone: its status, the calls that it issued, and the bits for its next reads. -/
structure Solo (S F A : Type) where
  status : Status S
  calls : List (Syscall F A)
  bits : List Bool

/-- Resume the process, and answer its call. -/
def Solo.resume (prog : Program S F A) (x : Solo S F A) : Solo S F A :=
  match x.status with
  | .running func retval =>
    match prog.send func retval with
    | .raises => { x with status := .raised }
    | .returns => { x with status := .finished }
    | .yields func .read =>
      match x.bits with
      | [] => ⟨.starved, x.calls ++ [.read], []⟩
      | bit :: bits => ⟨.running func (some bit), x.calls ++ [.read], bits⟩
    | .yields func call => ⟨.running func none, x.calls ++ [call], x.bits⟩
  | _ => x

/-- A process that is resumed `n` times, alone. -/
def alone (prog : Program S F A) (func : S) (n : ℕ) (bits : List Bool) : Solo S F A :=
  (Solo.resume prog)^[n] ⟨.running func none, [], bits⟩

/-! ### The events of a process -/

/-- The process that an event is about. -/
def Event.id : Event F A → ℕ
  | .call id _ _ => id
  | .stop id => id

def Event.syscall? : Event F A → Option (Syscall F A)
  | .call _ c _ => some c
  | .stop _ => none

/-- The bit that a `read` was answered with. -/
def Event.bit? : Event F A → Option Bool
  | .call _ _ bit => bit
  | .stop _ => none

/-- What a call writes. -/
def Syscall.text? : Syscall F A → Option String
  | .write s => some s
  | _ => none

def Event.text? (e : Event F A) : Option String := e.syscall?.bind Syscall.text?

/-- The generator that a `spawn` creates. -/
def Event.child? (prog : Program S F A) : Event F A → Option S
  | .call _ (.spawn fn args) _ => prog.call fn args
  | _ => none

variable (trace : List (Event F A)) (i : ℕ)

def own : List (Event F A) := trace.filter fun e => e.id == i

/-- The system calls that a process issues. -/
def calls : List (Syscall F A) := (own trace i).filterMap Event.syscall?

/-- The results of the reads of a process. -/
def bits : List Bool := (own trace i).filterMap Event.bit?

/-- What the processes write, in the order of the writes. -/
def writes : List String := trace.filterMap Event.text?

/-- The generators of all processes ever created, by their identity. -/
def births (prog : Program S F A) : List S := prog.main :: trace.filterMap (Event.child? prog)

/-- The process stopped, and this was its last event. -/
def Completed : Prop := ∃ es, own trace i = es ++ [.stop i] ∧ .stop i ∉ es

/-- What the process has done so far is what it does alone when it is fed the results of its own
reads, and this left it with the given status. -/
def Undisturbed (prog : Program S F A) (func : S) (status : Status S) : Prop :=
  alone prog func (own trace i).length (bits trace i) = ⟨status, calls trace i, []⟩

/-! ### One more event -/

section Concat

variable {trace i} {e : Event F A}

theorem own_concat_self (he : e.id = i) : own (trace ++ [e]) i = own trace i ++ [e] := by
  rw [own, List.filter_append, List.filter_singleton, he, beq_self_eq_true]
  rfl

theorem own_concat_ne (he : e.id ≠ i) : own (trace ++ [e]) i = own trace i := by
  rw [own, List.filter_append, List.filter_singleton, beq_false_of_ne he]
  exact List.append_nil _

/-- What another process does is not affected. -/
theorem Undisturbed.concat_ne {prog : Program S F A} {func : S} {status : Status S}
    (he : e.id ≠ i) (h : Undisturbed trace i prog func status) :
    Undisturbed (trace ++ [e]) i prog func status := by
  rw [Undisturbed, bits, calls, own_concat_ne he]
  exact h

theorem Completed.concat_ne (he : e.id ≠ i) (h : Completed trace i) :
    Completed (trace ++ [e]) i := by
  rw [Completed, own_concat_ne he]
  exact h

/-- More bits do not change what a process did that was not starved. -/
theorem resume_more {prog : Program S F A} {x : Solo S F A} (more : List Bool)
    (h : (x.resume prog).status ≠ .starved) :
    Solo.resume prog { x with bits := x.bits ++ more } =
      { x.resume prog with bits := (x.resume prog).bits ++ more } := by
  obtain ⟨status, cs, bs⟩ := x
  cases status with
  | running func retval =>
    cases hsend : prog.send func retval with
    | raises => simp [Solo.resume, hsend]
    | returns => simp [Solo.resume, hsend]
    | yields func' call =>
      cases call with
      | read =>
        cases bs with
        | nil => simp [Solo.resume, hsend] at h
        | cons b bs => simp [Solo.resume, hsend]
      | write s => simp [Solo.resume, hsend]
      | spawn fn args => simp [Solo.resume, hsend]
      | other => simp [Solo.resume, hsend]
  | finished => rfl
  | raised => rfl
  | starved => rfl

theorem starved_resume {prog : Program S F A} {x : Solo S F A} (h : x.status = .starved) :
    (x.resume prog).status = .starved := by
  simp [Solo.resume, h]

theorem alone_succ (prog : Program S F A) (func : S) (n : ℕ) (bs : List Bool) :
    alone prog func (n + 1) bs = (alone prog func n bs).resume prog :=
  Function.iterate_succ_apply' ..

theorem alone_more {prog : Program S F A} {func : S} {n : ℕ} {bs : List Bool} {x : Solo S F A}
    (halone : alone prog func n bs = x) (hx : x.status ≠ .starved) (more : List Bool) :
    alone prog func n (bs ++ more) = { x with bits := x.bits ++ more } := by
  induction n generalizing x with
  | zero =>
    rw [← halone]
    rfl
  | succ n ih =>
    rw [alone_succ] at halone
    subst halone
    rw [alone_succ, ih rfl fun hn => hx (starved_resume hn), resume_more more hx]

theorem filterMap_singleton_toList {α : Type} (f : Event F A → Option α) :
    [e].filterMap f = (f e).toList := by
  cases h : f e with
  | none => exact List.filterMap_cons_none h
  | some a => exact List.filterMap_cons_some h

/-- **A process goes on as it does alone.** -/
theorem Undisturbed.concat_self {prog : Program S F A} {func f : S} {r : Option Bool}
    {status : Status S} (he : e.id = i) (h : Undisturbed trace i prog func (.running f r))
    (hresume : Solo.resume prog ⟨.running f r, calls trace i, e.bit?.toList⟩ =
      ⟨status, calls trace i ++ e.syscall?.toList, []⟩) :
    Undisturbed (trace ++ [e]) i prog func status := by
  have hmore := alone_more h nofun e.bit?.toList
  rw [Undisturbed, bits, calls, own_concat_self he, List.length_append, List.length_singleton,
    List.filterMap_append, List.filterMap_append, filterMap_singleton_toList,
    filterMap_singleton_toList, alone_succ]
  exact (congrArg (Solo.resume prog) hmore).trans hresume

theorem births_concat (prog : Program S F A) :
    births (trace ++ [e]) prog = births trace prog ++ (e.child? prog).toList := by
  rw [births, List.filterMap_append, filterMap_singleton_toList]
  rfl

theorem join_writes_concat :
    String.join (writes (trace ++ [e])) =
      String.join (writes trace) ++ e.text?.getD "" := by
  rw [writes, List.filterMap_append, filterMap_singleton_toList, String.join, List.foldl_append]
  cases e.text? with
  | none => exact (String.append_empty).symm
  | some s => rfl

end Concat

/-! ### A round -/

/-- The identities of the processes. -/
def OS.ids (os : OS S) : List ℕ := os.procs.map Process.id

/-- The operating system after a call of the process at an index, which then is `new`. -/
def OS.issue (prog : Program S F A) (os : OS S) (index : ℕ) (new : Process S) (e : Event F A) :
    OS S :=
  ⟨os.procs.set index new ++ (e.child? prog).toList.map fun child => ⟨os.created, child, none⟩,
    os.buffer ++ e.text?.getD "",
    os.created + (e.child? prog).toList.length⟩

/-- **What a round can do**: the current process stops, or it issues a call, which is answered iff
it is a `read`. -/
theorem round_cases {prog : Program S F A} {os os' : OS S} {pick : Pick} {e : Event F A}
    (h : os.round prog pick = some (os', e)) :
    ∃ current, os.procs[pick.index]? = some current ∧
      ((prog.send current.func current.retval = .returns ∧ e = .stop current.id ∧
          os' = os.remove current) ∨
        ∃ func call bit, prog.send current.func current.retval = .yields func call ∧
          (bit.isSome ↔ call = .read) ∧ e = .call current.id call bit ∧
          os' = os.issue prog pick.index ⟨current.id, func, bit⟩ e) := by
  rw [OS.round, Option.bind_eq_bind, Option.bind_eq_some_iff] at h
  obtain ⟨current, hcurrent, h⟩ := h
  refine ⟨current, hcurrent, ?_⟩
  cases hsend : prog.send current.func current.retval with
  | raises => simp [hsend] at h
  | returns =>
    simp only [hsend, Option.some.injEq, Prod.mk.injEq] at h
    exact Or.inl ⟨rfl, h.2.symm, h.1.symm⟩
  | yields func call =>
    refine Or.inr ⟨func, call, ?_⟩
    cases call with
    | read =>
      simp only [hsend, Option.some.injEq, Prod.mk.injEq] at h
      refine ⟨some pick.bit, rfl, by simp, h.2.symm, ?_⟩
      rw [← h.1, ← h.2]
      simp [OS.issue, OS.update, Event.child?, Event.text?, Event.syscall?, Syscall.text?]
    | write s =>
      simp only [hsend, Option.some.injEq, Prod.mk.injEq] at h
      refine ⟨none, rfl, by simp, h.2.symm, ?_⟩
      rw [← h.1, ← h.2]
      simp [OS.issue, OS.update, Event.child?, Event.text?, Event.syscall?, Syscall.text?]
    | spawn fn args =>
      simp only [hsend, Option.bind_eq_bind, Option.bind_eq_some_iff, Option.some.injEq,
        Prod.mk.injEq] at h
      obtain ⟨child, hchild, h⟩ := h
      refine ⟨none, rfl, by simp, h.2.symm, ?_⟩
      rw [← h.1, ← h.2]
      simp [OS.issue, OS.update, Event.child?, Event.text?, Event.syscall?, Syscall.text?, hchild]
    | other => simp [hsend] at h

/-! ### The invariant -/

/-- How the operating system and the events so far are related. -/
structure Inv (prog : Program S F A) (os : OS S) (trace : List (Event F A)) : Prop where
  created : os.created = (births trace prog).length
  nodup : os.ids.Nodup
  lt_created : ∀ i ∈ os.ids, i < os.created
  traced : ∀ e ∈ trace, e.id < os.created
  buffer : os.buffer = String.join (writes trace)
  running : ∀ p ∈ os.procs, ∀ func, (births trace prog)[p.id]? = some func →
    Undisturbed trace p.id prog func (.running p.func p.retval) ∧ .stop p.id ∉ trace
  stopped : ∀ i func, (births trace prog)[i]? = some func → i ∉ os.ids →
    Undisturbed trace i prog func .finished ∧ Completed trace i

theorem inv_init (prog : Program S F A) : Inv prog (.init prog) [] where
  created := rfl
  nodup := List.nodup_singleton 0
  lt_created := by
    intro i hi
    rw [List.mem_singleton.mp hi]
    exact Nat.one_pos
  traced := nofun
  buffer := rfl
  running := by
    intro p hp func hfunc
    rw [List.mem_singleton.mp hp] at hfunc ⊢
    cases hfunc
    exact ⟨rfl, nofun⟩
  stopped := by
    intro i func hfunc hi
    cases i with
    | zero => exact absurd (List.mem_singleton_self 0) hi
    | succ i => cases hfunc

section Round

variable {prog : Program S F A} {os : OS S} {trace : List (Event F A)} {current : Process S}
  {index : ℕ}

theorem ids_remove : (os.remove current).ids = os.ids.erase current.id := by
  rw [OS.ids, OS.ids, List.erase_eq_eraseP', List.eraseP_map]
  rfl

/-- The process that stops is gone, and the others are as before. -/
theorem mem_remove (hnodup : os.ids.Nodup) {p : Process S} :
    p ∈ (os.remove current).procs ↔ p ∈ os.procs ∧ p.id ≠ current.id := by
  by_cases hid : p.id = current.id
  · refine ⟨fun hp => ?_, fun hp => absurd hid hp.2⟩
    have hmem : p.id ∈ (os.remove current).ids := List.mem_map_of_mem hp
    rw [ids_remove, hid] at hmem
    exact absurd hmem hnodup.not_mem_erase
  · have hneg : ¬ (p.id == current.id) = true := by rwa [beq_iff_eq]
    have hiff : p ∈ (os.remove current).procs ↔ p ∈ os.procs := List.mem_eraseP_of_neg hneg
    rw [hiff]
    exact ⟨fun hp => ⟨hp, hid⟩, fun hp => hp.1⟩

theorem inv_stop (h : Inv prog os trace) (hcurrent : current ∈ os.procs)
    (hsend : prog.send current.func current.retval = .returns) :
    Inv prog (os.remove current) (trace ++ [.stop current.id]) := by
  have hbirths : births (trace ++ [.stop current.id]) prog = births trace prog := by
    rw [births_concat]
    exact List.append_nil _
  refine ⟨?_, ?_, ?_, ?_, ?_, ?_, ?_⟩
  · rw [hbirths]
    exact h.created
  · exact h.nodup.sublist (List.eraseP_sublist.map _)
  · exact fun i hi => h.lt_created i ((List.eraseP_sublist.map _).subset hi)
  · intro e he
    rcases List.mem_append.mp he with he | he
    · exact h.traced e he
    · rw [List.mem_singleton.mp he]
      exact h.lt_created _ (List.mem_map_of_mem hcurrent)
  · rw [join_writes_concat]
    exact h.buffer.trans String.append_empty.symm
  · intro p hp func hfunc
    rw [hbirths] at hfunc
    obtain ⟨hp, hne⟩ := (mem_remove h.nodup).mp hp
    obtain ⟨halone, hstop⟩ := h.running p hp func hfunc
    refine ⟨halone.concat_ne (Ne.symm hne), fun hmem => ?_⟩
    rcases List.mem_append.mp hmem with hmem | hmem
    · exact hstop hmem
    · injection List.mem_singleton.mp hmem with hid
      exact hne hid
  · intro i func hfunc hi
    rw [hbirths] at hfunc
    by_cases hid : current.id = i
    · subst hid
      obtain ⟨halone, hstop⟩ := h.running current hcurrent func hfunc
      refine ⟨halone.concat_self rfl ?_, own trace current.id, own_concat_self rfl, ?_⟩
      · simp [Solo.resume, hsend, Event.bit?, Event.syscall?]
      · exact fun hmem => hstop (List.mem_of_mem_filter hmem)
    · have hbefore : i ∉ os.ids := by
        intro hmem
        obtain ⟨p, hp, rfl⟩ := List.mem_map.mp hmem
        exact hi (List.mem_map_of_mem ((mem_remove h.nodup).mpr ⟨hp, Ne.symm hid⟩))
      obtain ⟨halone, hdone⟩ := h.stopped i func hfunc hbefore
      exact ⟨halone.concat_ne hid, hdone.concat_ne hid⟩

/-- The process that issues a call changes, and the others are as before. -/
theorem mem_set (hnodup : os.ids.Nodup) (hindex : os.procs[index]? = some current)
    {new p : Process S} (hp : p ∈ os.procs.set index new) :
    p = new ∨ p ∈ os.procs ∧ p.id ≠ current.id := by
  obtain ⟨j, hj⟩ := List.getElem?_of_mem hp
  rw [List.getElem?_set] at hj
  split_ifs at hj with hij hlt
  · exact Or.inl (Option.some.inj hj).symm
  · refine Or.inr ⟨List.mem_of_getElem? hj, fun hid => hij ?_⟩
    have hids : os.ids[index]? = os.ids[j]? := by
      rw [OS.ids, List.getElem?_map, List.getElem?_map, hindex, hj, Option.map_some,
        Option.map_some, hid]
    refine (List.getElem?_inj ?_ hnodup).mp hids
    rw [OS.ids, List.length_map]
    exact (List.getElem?_eq_some_iff.mp hindex).1

theorem ids_set {new : Process S} (hindex : os.procs[index]? = some current)
    (hnew : new.id = current.id) : (os.procs.set index new).map Process.id = os.ids := by
  rw [List.map_set, hnew, OS.ids]
  apply List.ext_getElem?
  intro j
  rw [List.getElem?_set]
  split_ifs with hij hlt
  · rw [← hij, List.getElem?_map, hindex, Option.map_some]
  · rw [← hij, List.getElem?_eq_none_iff.mpr (by omega)]
  · rfl

/-- The answer of a call takes a process where it goes alone. -/
theorem resume_call {func func' : S} {retval bit : Option Bool} {call : Syscall F A}
    (hsend : prog.send func retval = .yields func' call) (hbit : bit.isSome ↔ call = .read)
    (cs : List (Syscall F A)) :
    Solo.resume prog ⟨.running func retval, cs, bit.toList⟩ =
      ⟨.running func' bit, cs ++ [call], []⟩ := by
  cases call with
  | read =>
    obtain ⟨b, rfl⟩ := Option.isSome_iff_exists.mp (hbit.mpr rfl)
    simp [Solo.resume, hsend]
  | write s =>
    have hnone : bit = none := by simpa using hbit
    simp [Solo.resume, hsend, hnone]
  | spawn fn args =>
    have hnone : bit = none := by simpa using hbit
    simp [Solo.resume, hsend, hnone]
  | other =>
    have hnone : bit = none := by simpa using hbit
    simp [Solo.resume, hsend, hnone]

/-- Nothing has happened yet to a process that is not created. -/
theorem own_created (h : Inv prog os trace) : own trace os.created = [] := by
  refine List.filter_eq_nil_iff.mpr fun e he => ?_
  rw [beq_iff_eq]
  exact Nat.ne_of_lt (h.traced e he)

theorem ids_issue (hindex : os.procs[index]? = some current) {new : Process S}
    (hnew : new.id = current.id) (e : Event F A) : (os.issue prog index new e).ids =
      os.ids ++ (e.child? prog).toList.map fun _ => os.created := by
  rw [OS.ids, OS.issue, List.map_append, ids_set hindex hnew, List.map_map]
  rfl

section Issue

variable {new : Process S} {e : Event F A}

theorem nodup_issue (h : Inv prog os trace) (hindex : os.procs[index]? = some current)
    (hnew : new.id = current.id) : (os.issue prog index new e).ids.Nodup := by
  rw [ids_issue hindex hnew]
  cases e.child? prog with
  | none =>
    rw [Option.toList_none, List.map_nil, List.append_nil]
    exact h.nodup
  | some child =>
    refine h.nodup.append (List.nodup_singleton _) fun i hi hchild => ?_
    rw [List.mem_singleton.mp hchild] at hi
    exact Nat.lt_irrefl _ (h.lt_created _ hi)

theorem lt_created_issue (h : Inv prog os trace) (hindex : os.procs[index]? = some current)
    (hnew : new.id = current.id) :
    ∀ i ∈ (os.issue prog index new e).ids, i < (os.issue prog index new e).created := by
  rw [ids_issue hindex hnew]
  intro i hi
  rcases List.mem_append.mp hi with hi | hi
  · exact Nat.lt_add_right _ (h.lt_created i hi)
  · obtain ⟨child, hchild, rfl⟩ := List.mem_map.mp hi
    exact Nat.lt_add_of_pos_right (List.length_pos_of_mem hchild)

/-- A process that has just been created. -/
theorem undisturbed_created (h : Inv prog os trace) (he : e.id < os.created) (child : S) :
    Undisturbed (trace ++ [e]) os.created prog child (.running child none) := by
  apply Undisturbed.concat_ne (Nat.ne_of_lt he)
  rw [Undisturbed, bits, calls, own_created h]
  rfl

/-- The generator of a process that was there before. -/
theorem getElem?_births_concat {i : ℕ} (hi : i < (births trace prog).length) :
    (births (trace ++ [e]) prog)[i]? = (births trace prog)[i]? := by
  rw [births_concat, List.getElem?_append_left hi]

end Issue

section Call

variable {func : S} {call : Syscall F A} {bit : Option Bool} {e : Event F A}

theorem running_issue (h : Inv prog os trace) (hindex : os.procs[index]? = some current)
    (hsend : prog.send current.func current.retval = .yields func call)
    (hbit : bit.isSome ↔ call = .read) (he : e = .call current.id call bit) {p : Process S}
    (hp : p ∈ (os.issue prog index ⟨current.id, func, bit⟩ e).procs) {f : S}
    (hf : (births (trace ++ [e]) prog)[p.id]? = some f) :
    Undisturbed (trace ++ [e]) p.id prog f (.running p.func p.retval) ∧ .stop p.id ∉ trace := by
  have hcurrent : current ∈ os.procs := List.mem_of_getElem? hindex
  have hid : current.id < os.created := h.lt_created _ (List.mem_map_of_mem hcurrent)
  have heid : e.id = current.id := by rw [he]; rfl
  rcases List.mem_append.mp hp with hp | hp
  · rcases mem_set h.nodup hindex hp with rfl | ⟨hp, hne⟩
    -- the process that issued the call
    · rw [getElem?_births_concat (h.created ▸ hid)] at hf
      obtain ⟨halone, hstop⟩ := h.running current hcurrent f hf
      refine ⟨halone.concat_self heid ?_, hstop⟩
      rw [he]
      exact resume_call hsend hbit _
    -- another process
    · have hpid : p.id < os.created := h.lt_created _ (List.mem_map_of_mem hp)
      rw [getElem?_births_concat (h.created ▸ hpid)] at hf
      obtain ⟨halone, hstop⟩ := h.running p hp f hf
      exact ⟨halone.concat_ne (heid ▸ Ne.symm hne), hstop⟩
  -- the process that the call created
  · obtain ⟨child, hchild, rfl⟩ := List.mem_map.mp hp
    rw [Option.mem_toList] at hchild
    rw [births_concat, h.created, List.getElem?_append_right (Nat.le_refl _), Nat.sub_self,
      hchild] at hf
    cases hf
    exact ⟨undisturbed_created h (heid ▸ hid) _, fun hmem => Nat.lt_irrefl _ (h.traced _ hmem)⟩

theorem stopped_issue (h : Inv prog os trace) (hindex : os.procs[index]? = some current)
    (heid : e.id = current.id) {i : ℕ} {new : Process S}
    (hi : i ∉ (os.issue prog index new e).ids) (hnew : new.id = current.id) {f : S}
    (hf : (births (trace ++ [e]) prog)[i]? = some f) :
    Undisturbed (trace ++ [e]) i prog f .finished ∧ Completed (trace ++ [e]) i := by
  rw [ids_issue hindex hnew, List.mem_append, not_or] at hi
  by_cases hlt : i < (births trace prog).length
  · rw [getElem?_births_concat hlt] at hf
    have hne : e.id ≠ i := by
      rw [heid]
      rintro rfl
      exact hi.1 (List.mem_map_of_mem (List.mem_of_getElem? hindex))
    obtain ⟨halone, hdone⟩ := h.stopped i f hf hi.1
    exact ⟨halone.concat_ne hne, hdone.concat_ne hne⟩
  -- a process that the call created is not stopped yet
  · rw [births_concat, List.getElem?_append_right (by omega)] at hf
    cases hchild : e.child? prog with
    | none =>
      rw [hchild] at hf
      cases hf
    | some child =>
      obtain ⟨hzero, -⟩ := List.getElem?_eq_some_iff.mp hf
      rw [hchild, Option.toList_some, List.length_singleton] at hzero
      refine absurd (List.mem_map.mpr ⟨child, ?_, ?_⟩) hi.2
      · rw [hchild]
        exact List.mem_singleton_self child
      · rw [h.created]
        omega

theorem inv_call (h : Inv prog os trace) (hindex : os.procs[index]? = some current)
    (hsend : prog.send current.func current.retval = .yields func call)
    (hbit : bit.isSome ↔ call = .read) (he : e = .call current.id call bit) :
    Inv prog (os.issue prog index ⟨current.id, func, bit⟩ e) (trace ++ [e]) := by
  have heid : e.id = current.id := by rw [he]; rfl
  refine ⟨?_, nodup_issue h hindex rfl, lt_created_issue h hindex rfl, ?_, ?_, ?_, ?_⟩
  · rw [births_concat, List.length_append, ← h.created]
    rfl
  · intro e' he'
    rcases List.mem_append.mp he' with he' | he'
    · exact Nat.lt_add_right _ (h.traced e' he')
    · rw [List.mem_singleton.mp he', heid]
      exact Nat.lt_add_right _ (h.lt_created _ (List.mem_map_of_mem (List.mem_of_getElem? hindex)))
  · rw [join_writes_concat, ← h.buffer]
    rfl
  · intro p hp f hf
    obtain ⟨halone, hstop⟩ := running_issue h hindex hsend hbit he hp hf
    refine ⟨halone, fun hmem => ?_⟩
    rcases List.mem_append.mp hmem with hmem | hmem
    · exact hstop hmem
    · rw [List.mem_singleton, he] at hmem
      cases hmem
  · exact fun i f hf hi => stopped_issue h hindex heid hi rfl hf

end Call

end Round

/-- **A round keeps the invariant.** -/
theorem inv_round {prog : Program S F A} {os os' : OS S} {trace : List (Event F A)} {pick : Pick}
    {e : Event F A} (h : Inv prog os trace) (hround : os.round prog pick = some (os', e)) :
    Inv prog os' (trace ++ [e]) := by
  obtain ⟨current, hindex, ⟨hsend, rfl, rfl⟩ | ⟨func, call, bit, hsend, hbit, he, rfl⟩⟩ :=
    round_cases hround
  · exact inv_stop h (List.mem_of_getElem? hindex) hsend
  · exact inv_call h hindex hsend hbit he

/-- **Every run keeps the invariant.** -/
theorem inv_rounds {prog : Program S F A} {picks : List Pick} {os os' : OS S}
    {trace es : List (Event F A)} (h : Inv prog os trace)
    (hrounds : os.rounds prog picks = some (os', es)) : Inv prog os' (trace ++ es) := by
  induction picks generalizing os trace es with
  | nil =>
    cases hrounds
    rw [List.append_nil]
    exact h
  | cons pick picks ih =>
    simp only [OS.rounds, Option.bind_eq_bind, Option.bind_eq_some_iff, Option.some.injEq,
      Prod.mk.injEq, Prod.exists] at hrounds
    obtain ⟨mid, e, hround, last, rest, hrest, rfl, rfl⟩ := hrounds
    rw [List.append_cons]
    exact ih (inv_round h hround) hrest

/-! ### The buffer -/

/-- `out` is an interleaving of sequences: its entries come from them, and what comes from a
sequence is the whole of it, in its order. -/
def Interleaving {α : Type} (seqs : List (List α)) (out : List α) : Prop :=
  ∃ tagged : List (ℕ × α), tagged.map Prod.snd = out ∧ (∀ x ∈ tagged, x.1 < seqs.length) ∧
    ∀ i seq, seqs[i]? = some seq → (tagged.filter fun x => x.1 == i).map Prod.snd = seq

/-- The writes, with the processes that they are from. -/
def taggedWrites (trace : List (Event F A)) : List (ℕ × String) :=
  trace.filterMap fun e => e.text?.map fun s => (e.id, s)

theorem snd_taggedWrites (trace : List (Event F A)) :
    (taggedWrites trace).map Prod.snd = writes trace := by
  rw [taggedWrites, List.map_filterMap, writes]
  congr 1
  funext e
  rw [Option.map_map]
  exact Option.map_id'

/-- The writes of a process are the writes among its calls. -/
theorem filter_taggedWrites (trace : List (Event F A)) (i : ℕ) :
    ((taggedWrites trace).filter fun x => x.1 == i).map Prod.snd =
      (calls trace i).filterMap Syscall.text? := by
  rw [calls, List.filterMap_filterMap]
  show _ = (own trace i).filterMap Event.text?
  induction trace with
  | nil => rfl
  | cons e trace ih =>
    rw [taggedWrites, own] at ih ⊢
    cases htext : e.text? with
    | none =>
      by_cases hid : e.id = i
      · simp [htext, hid, ih]
      · simp [htext, hid, ih]
    | some s =>
      by_cases hid : e.id = i
      · simp [htext, hid, ih]
      · simp [htext, hid, ih]

theorem interleaving_writes {trace : List (Event F A)} {n : ℕ} (h : ∀ e ∈ trace, e.id < n) :
    Interleaving ((List.range n).map fun i => (calls trace i).filterMap Syscall.text?)
      (writes trace) := by
  refine ⟨taggedWrites trace, snd_taggedWrites trace, ?_, ?_⟩
  · intro x hx
    rw [List.length_map, List.length_range]
    obtain ⟨e, he, hx⟩ := List.mem_filterMap.mp hx
    obtain ⟨s, -, rfl⟩ := Option.map_eq_some_iff.mp hx
    exact h e he
  · intro i seq hseq
    rw [List.getElem?_map] at hseq
    obtain ⟨j, hj, rfl⟩ := Option.map_eq_some_iff.mp hseq
    obtain ⟨-, rfl⟩ := List.getElem?_eq_some_iff.mp hj
    rw [List.getElem_range]
    exact filter_taggedWrites trace i

/-- **Processes do not disturb each other**: what each does is what it does alone, and a run that
returns has let every process finish once and interleaved what they write. -/
theorem processes_undisturbed {prog : Program S F A} {picks : List Pick} {os : OS S}
    {trace : List (Event F A)} (h : (OS.init prog).rounds prog picks = some (os, trace)) :
    (∀ e ∈ trace, e.id < (births trace prog).length) ∧
    (∀ i func, (births trace prog)[i]? = some func →
      (∃ p ∈ os.procs, p.id = i ∧ Undisturbed trace i prog func (.running p.func p.retval)) ∨
        Undisturbed trace i prog func .finished) ∧
    (os.procs = [] → run prog picks = some os.buffer ∧
      (∀ i func, (births trace prog)[i]? = some func →
        Undisturbed trace i prog func .finished ∧ Completed trace i) ∧
      ∃ out, os.buffer = String.join out ∧
        Interleaving ((List.range (births trace prog).length).map fun i =>
          (calls trace i).filterMap Syscall.text?) out) := by
  have hinv : Inv prog os trace := inv_rounds (inv_init prog) h
  have htraced : ∀ e ∈ trace, e.id < (births trace prog).length := hinv.created ▸ hinv.traced
  refine ⟨htraced, fun i func hfunc => ?_, fun hprocs => ⟨?_, fun i func hfunc => ?_, ?_⟩⟩
  · by_cases hi : i ∈ os.ids
    · obtain ⟨p, hp, rfl⟩ := List.mem_map.mp hi
      exact Or.inl ⟨p, hp, rfl, (hinv.running p hp func hfunc).1⟩
    · exact Or.inr (hinv.stopped i func hfunc hi).1
  · simp [run, h, hprocs]
  · refine hinv.stopped i func hfunc ?_
    rw [OS.ids, hprocs]
    exact List.not_mem_nil
  · exact ⟨writes trace, hinv.buffer, interleaving_writes htraced⟩

/-! ### The program of `hello.py`, run by two processes -/

/-- The generators of a `main()` that spawns processes by their names, as `proc.py` does, and of
the loop of `hello.py` for three bits. -/
inductive HelloState where
  | main (names : List String)
  | start (name : String)
  | asked (name : String) (left x : ℕ)
  | done

/-- Each process reads its bits and writes its name and the number that they make. -/
def helloProgram : Program HelloState Unit String where
  main := .main ["A", "B"]
  call := fun _ name => some (.start name)
  send := fun func retval =>
    match func with
    | .main (name :: names) => .yields (.main names) (.spawn () name)
    | .main [] => .returns
    | .start name => .yields (.asked name 2 0) .read
    | .asked name (left + 1) x =>
      .yields (.asked name left (x * 2 + (retval.getD false).toNat)) .read
    | .asked name 0 x =>
      .yields .done (.write (name ++ toString (x * 2 + (retval.getD false).toNat)))
    | .done => .returns

/-- Choices for a run in which the reads of the two processes take turns. -/
def helloPicks : List Pick :=
  [⟨0, true⟩, ⟨0, true⟩, ⟨0, true⟩, ⟨0, true⟩, ⟨1, false⟩, ⟨1, true⟩, ⟨0, false⟩, ⟨0, true⟩,
    ⟨1, true⟩, ⟨1, true⟩, ⟨1, true⟩, ⟨0, true⟩, ⟨0, true⟩]

theorem processes_undisturbed_hello :
    ∃ os trace, (OS.init helloProgram).rounds helloProgram helloPicks = some (os, trace) ∧
      run helloProgram helloPicks = some "B3A5" ∧ (births trace helloProgram).length = 3 ∧
      bits trace 1 = [true, false, true] ∧ bits trace 2 = [false, true, true] ∧
      ∀ i func, (births trace helloProgram)[i]? = some func →
        Undisturbed trace i helloProgram func .finished ∧ Completed trace i := by
  obtain ⟨os, trace, h, hprocs, hbuffer, hlen, h₁, h₂⟩ : ∃ os trace,
      (OS.init helloProgram).rounds helloProgram helloPicks = some (os, trace) ∧ os.procs = [] ∧
        os.buffer = "B3A5" ∧ (births trace helloProgram).length = 3 ∧
        bits trace 1 = [true, false, true] ∧ bits trace 2 = [false, true, true] :=
    ⟨_, _, rfl, rfl, rfl, rfl, rfl, rfl⟩
  obtain ⟨hrun, hall, -⟩ := (processes_undisturbed h).2.2 hprocs
  exact ⟨os, trace, h, hbuffer ▸ hrun, hlen, h₁, h₂, hall⟩

end Jyyos.OsModel
