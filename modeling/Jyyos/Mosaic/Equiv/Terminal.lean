import Jyyos.Mosaic.Equiv.Fork
import Jyyos.Mosaic.Equiv.Threads

/-!
# The states without choices

A system call always offers a choice, with one exception: a `sys_choose` from an empty list.  And
`sys_sched` offers the live threads, so after the end of a thread there is a choice as long as
another one is live.  Hence the leaves of the state graph are the states in which all threads have
returned and those in which the current thread chooses from nothing (`run_terminal_iff`).
-/

namespace Jyyos.Mosaic

variable {V F S H : Type} [PyVal V] [DecidableEq V] (app : App V F S H)
  {ref : Reference V F S H}

omit [DecidableEq V] in
/-- The table of a device call is empty only for a choice from nothing. -/
theorem DevCall.keys_table_eq_nil_iff (d : Devices V) (c : DevCall V) :
    (c.table d).keys = [] ↔ c = .choose [] := by
  cases c with
  | choose choices =>
    unfold DevCall.table sysChoose
    rw [Dict.keys_ofList_eq_nil_iff, List.map_eq_nil_iff]
    simp
  | crash =>
    unfold DevCall.table sysCrash
    rw [Dict.keys_ofList_eq_nil_iff, List.map_eq_nil_iff, List.zipIdx_eq_nil_iff]
    -- there is at least one subset of the buffer
    have hlen := Itertools.length_bitTuples d.storage.buf.entries.length
    constructor
    · intro hnil
      rw [hnil, List.length_nil] at hlen
      exact absurd hlen (Nat.two_pow_pos _).ne
    · intro h
      cases h
  | _ =>
    unfold DevCall.table
    exact ⟨fun h => absurd (Dict.keys_ofList_eq_nil_iff.mp h) (List.cons_ne_nil _ _), fun h => by
      cases h⟩

omit [PyVal V] [DecidableEq V] in
/-- The table of `sys_sched` is empty only if no thread is live. -/
theorem keys_sysSched_eq_nil_iff {C : Type} (contexts : List (Gen V F S)) :
    (sysSched contexts : Choices V F C).keys = [] ↔ ∀ g ∈ contexts, ¬g.Live := by
  unfold sysSched
  rw [Dict.keys_ofList_eq_nil_iff, List.map_eq_nil_iff, List.filter_eq_nil_iff]
  constructor
  · intro h g hg hl
    obtain ⟨i, hi⟩ := List.mem_iff_getElem?.mp hg
    exact h (g, i) (List.mem_zipIdx_iff_getElem?.mpr hi) (decide_eq_true hl)
  · intro h g hg hl
    have := List.mem_of_getElem? (List.mem_zipIdx_iff_getElem?.mp hg)
    exact h g.1 this (of_decide_eq_true hl)

/-- The current thread chooses from an empty list. -/
def ChoosesNothing (contexts : List (Gen V F S)) (current : ℕ) : Prop :=
  ∃ frame, contexts[current]? = some (.suspended frame (.dev (.choose [])))

omit [DecidableEq V] in
/-- When there is no choice. -/
theorem Reference.Inv.keys_choices_eq_nil_iff (h : ref.Inv app) :
    ref.choices.keys = [] ↔
      (∀ g ∈ ref.contexts, ¬g.Live) ∨ ChoosesNothing ref.contexts ref.current := by
  obtain ⟨g, hg⟩ : ∃ g, ref.contexts[ref.current]? = some g :=
    ⟨_, List.getElem?_eq_getElem h.standing.current_lt⟩
  have hmem : g ∈ ref.contexts := List.mem_of_getElem? hg
  have hoff := h.offers
  unfold Reference.Offers at hoff
  unfold ChoosesNothing
  rw [hg] at hoff ⊢
  -- a live current thread rules out the first case, and its system call decides the second
  have hlive : g.Live → ¬∀ g ∈ ref.contexts, ¬g.Live := fun hl hall => hall g hmem hl
  cases g with
  | start frame =>
    replace hoff : ref.choices = initChoices app.initName := hoff
    rw [hoff]
    unfold initChoices
    rw [Dict.keys_ofList_eq_nil_iff]
    simp [hlive (by simp [Gen.Live])]
  | finished =>
    replace hoff : ref.choices = sysSched ref.contexts := hoff
    rw [hoff, keys_sysSched_eq_nil_iff]
    simp
  | suspended frame call =>
    replace hoff : ref.choices = ref.syscall (some call) := hoff
    rw [hoff, or_iff_right (hlive (by simp [Gen.Live]))]
    cases call with
    | dev c =>
      have hkeys : (ref.syscall (some (.dev c))).keys = (c.table ref.devices).keys :=
        Dict.keys_map _ _
      rw [hkeys, DevCall.keys_table_eq_nil_iff]
      simp
    | sched =>
      have hkeys := keys_sysSched_eq_nil_iff (C := Unit) ref.contexts
      exact ⟨fun hnil => absurd (hkeys.mp hnil) (hlive (by simp [Gen.Live])), by simp⟩
    | fork =>
      exact ⟨fun hnil => absurd (Dict.keys_ofList_eq_nil_iff.mp hnil) (List.cons_ne_nil _ _),
        by simp⟩
    | spawn func args =>
      exact ⟨fun hnil => absurd (Dict.keys_ofList_eq_nil_iff.mp hnil) (List.cons_ne_nil _ _),
        by simp⟩

/-- **The leaves of the state graph.**  A run cannot be continued exactly when all its threads have
returned, or when its current thread chooses from an empty list. -/
theorem run_terminal_iff (trace : List Label) (k : ℕ) (w w' : World H)
    {os : OperatingSystem V F S}
    (hrun : OperatingSystem.run app (trace.length + k) [] trace w = (.ok os, w')) :
    ∃ table, os.choices = some table ∧ (table.keys = [] ↔
      (∀ g ∈ os.contexts, ¬g.Live) ∨ ChoosesNothing os.contexts os.current) := by
  have hsim := runSim app (trace.length + k) trace (Nat.le_add_right ..) [] rfl w
  obtain ⟨ref, href, -, -, ρ, hsim⟩ := hsim.exists_some hrun
  have hinv := Reference.inv_run app trace href
  obtain ⟨table, htable, hforget⟩ := Option.map_eq_some_iff.mp hsim.choices
  refine ⟨table, htable, ?_⟩
  have hkeys : table.keys = ref.choices.keys := by rw [← hforget, Dict.keys_map]
  rw [hkeys, hinv.keys_choices_eq_nil_iff, hsim.sameState.contexts, hsim.current]

/-- An application that chooses from nothing. -/
def emptyChoice : App (Option ℕ) Empty Unit Unit where
  initName := ['m', 'a', 'i', 'n']
  init := ()
  call := fun func _ => func.elim
  resume := fun _ _ _ => .yields () (.dev (.choose [])) ()
  emptyHeap := ()

theorem run_terminal_iff_emptyChoice : ∃ os w' table,
    OperatingSystem.run emptyChoice (1 + 0) [] [.text ['m', 'a', 'i', 'n']] ⟨[], 0, []⟩ =
      (.ok os, w') ∧ os.choices = some table ∧ table.keys = [] := by
  obtain ⟨table, htable, hiff⟩ :=
    run_terminal_iff emptyChoice [.text ['m', 'a', 'i', 'n']] 0 ⟨[], 0, []⟩ _ rfl
  exact ⟨_, _, table, rfl, htable, hiff.mpr (Or.inr ⟨(), rfl⟩)⟩

end Jyyos.Mosaic
