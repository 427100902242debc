import Jyyos.Mosaic.Equiv.StateDump
import Mathlib.Data.List.GetD
import Mathlib.Data.Set.Function

/-!
# The numbers of the heaps are canonical

A dump calls a heap by its position among the heaps that the threads mention.  Two states that agree
otherwise have the same dump if their heaps correspond (`stateDump_congr`); and heaps with the same
number correspond if the dumps are equal (`exists_heapMap`).  A dump does not show the heap of a
thread that has terminated, but it numbers this heap and shows its contents.
-/

namespace Jyyos.Mosaic

variable {V F S H D : Type}

/-! ### Positions in lists -/

/-- Two lists without repetition that are as long as each other correspond by position. -/
theorem exists_bijOn_of_nodup {l l' : List ℕ} (hl : l.Nodup) (hl' : l'.Nodup)
    (hlen : l.length = l'.length) : ∃ σ : ℕ → ℕ, Set.BijOn σ {i | i ∈ l} {i | i ∈ l'} ∧
      l' = l.map σ := by
  obtain ⟨σ, rfl⟩ : ∃ σ, l' = l.map σ := by
    refine ⟨fun i => l'.getD (l.idxOf i) 0, ?_⟩
    apply List.ext_getElem
    · rw [List.length_map, hlen]
    · intro k hk hk'
      rw [List.getElem_map, hl.idxOf_getElem, List.getD_eq_getElem _ _ hk]
  refine ⟨σ, ⟨?_, ?_, ?_⟩, rfl⟩
  · exact fun i hi => List.mem_map_of_mem hi
  · exact fun i hi j hj heq => List.inj_on_of_nodup_map hl' hi hj heq
  · intro j hj
    obtain ⟨i, hi, hij⟩ := List.mem_map.mp hj
    exact ⟨i, hi, hij⟩

/-- An injection does not move positions. -/
theorem idxOf_map {σ : ℕ → ℕ} {l : List ℕ} (hσ : Set.InjOn σ {i | i ∈ l}) {i : ℕ} (hi : i ∈ l) :
    (l.map σ).idxOf (σ i) = l.idxOf i := by
  induction l with
  | nil => cases hi
  | cons k l ih =>
    rw [List.map_cons]
    by_cases hk : k = i
    · rw [hk, List.idxOf_cons_self, List.idxOf_cons_self]
    · have hσk : σ k ≠ σ i := fun heq => hk (hσ List.mem_cons_self hi heq)
      have hil : i ∈ l := (List.mem_cons.mp hi).resolve_left (Ne.symm hk)
      rw [List.idxOf_cons_ne _ hσk, List.idxOf_cons_ne _ hk,
        ih (hσ.mono fun j hj => List.mem_cons_of_mem _ hj) hil]

theorem nodup_heapIds (heaps : List ℕ) : (heapIds heaps).Nodup := by
  induction heaps using List.reverseRecOn with
  | nil => exact List.nodup_nil
  | append_singleton heaps k ih =>
    rw [heapIds_concat]
    split_ifs with hk
    · exact ih
    · rw [← List.concat_eq_append]
      exact ih.concat hk

theorem mem_heapIds_iff {heaps : List ℕ} {i : ℕ} : i ∈ heapIds heaps ↔ i ∈ heaps := by
  refine ⟨heapIds_subset heaps i, fun hi => ?_⟩
  induction heaps using List.reverseRecOn with
  | nil => exact hi
  | append_singleton heaps k ih =>
    rw [heapIds_concat]
    rcases List.mem_append.mp hi with hi | hi
    · split_ifs
      · exact ih hi
      · exact List.mem_append_left _ (ih hi)
    · rw [List.mem_singleton.mp hi]
      split_ifs with hk
      · exact hk
      · exact List.mem_append_right _ (List.mem_singleton_self k)

/-! ### The order of the choices -/

instance : Std.Total fun a b : Label => a.le b = true where
  total a b := by
    cases a with
    | text s =>
      cases b with
      | text t =>
        rcases List.le_total s t with hle | hle
        · exact Or.inl (congrArg not (List.lex_eq_false_iff_ge.mpr hle))
        · exact Or.inr (congrArg not (List.lex_eq_false_iff_ge.mpr hle))
      | num n => exact Or.inl rfl
    | num m =>
      cases b with
      | text t => exact Or.inr rfl
      | num n => simpa [Label.le] using le_total m n

instance : IsTrans Label fun a b => a.le b = true where
  trans a b c hab hbc := by
    cases a with
    | text s =>
      cases c with
      | text u =>
        cases b with
        | text t =>
          simp only [Label.le, Bool.not_eq_true', ← Bool.not_eq_true, List.lex_eq_true_iff_lt]
            at hab hbc ⊢
          exact List.le_trans hab hbc
        | num n => cases hbc
      | num n => rfl
    | num m =>
      cases b with
      | text t => cases hab
      | num n =>
        cases c with
        | text u => cases hbc
        | num k =>
          simp only [Label.le, decide_eq_true_eq] at hab hbc ⊢
          omega

instance : Std.Antisymm fun a b : Label => a.le b = true where
  antisymm a b hab hba := by
    cases a with
    | text s =>
      cases b with
      | text t =>
        simp only [Label.le, Bool.not_eq_true', ← Bool.not_eq_true, List.lex_eq_true_iff_lt]
          at hab hba
        exact congrArg Label.text (List.le_antisymm hab hba)
      | num n => cases hba
    | num m =>
      cases b with
      | text t => cases hab
      | num n =>
        simp only [Label.le, decide_eq_true_eq] at hab hba
        rw [Nat.le_antisymm hab hba]

/-- The order of the entries of a table does not show. -/
theorem sortedKeys_perm {A B : Type} {c : Dict Label A} {d : Dict Label B}
    (h : c.keys.Perm d.keys) : sortedKeys c = sortedKeys d := by
  refine List.Perm.eq_of_pairwise' (List.pairwise_insertionSort _ _)
    (List.pairwise_insertionSort _ _) ?_
  exact (List.perm_insertionSort _ _).trans (h.trans (List.perm_insertionSort _ _).symm)

/-! ### States that agree except for their heaps -/

/-- The heaps that the threads of a state mention. -/
def OperatingSystem.heaps (os : OperatingSystem V F S) : List ℕ := os.threads.map Thread.heap

section Dump

variable [DecidableEq V] (insp : Inspect S H D) (w w' : World H) (os os' : OperatingSystem V F S)

/-- The states agree on everything but the heaps.  Dictionaries agree if they have the same entries,
tables of choices if they have the same keys. -/
structure Agree : Prop where
  current : os.current = os'.current
  choices : Option.Rel (fun c c' => c.keys.Perm c'.keys) os.choices os'.choices
  stdout : os.devices.stdout = os'.devices.stdout
  persist : os.devices.storage.persist.entries.toFinset =
    os'.devices.storage.persist.entries.toFinset
  buf : os.devices.storage.buf.entries.toFinset = os'.devices.storage.buf.entries.toFinset
  contexts : os.contexts = os'.contexts

/-- `σ` is a bijection between the heaps of two states, and it preserves their contents. -/
structure HeapMap (σ : ℕ → ℕ) : Prop where
  bij : Set.BijOn σ {i | i ∈ os.heaps} {i | i ∈ os'.heaps}
  contents : ∀ i ∈ os.heaps, (w'.heaps[σ i]?).map insp.dict = (w.heaps[i]?).map insp.dict

/-- `σ` maps the heap of a thread to the heap of the same thread, for the threads in question. -/
def MapsThreads (P : Gen V F S → Prop) (σ : ℕ → ℕ) : Prop :=
  ∀ (i : ℕ) (th th' : Thread V F S), os.threads[i]? = some th → os'.threads[i]? = some th' →
    P th.context → σ th.heap = th'.heap

variable {insp w w' os os'}

theorem Agree.getElem?_thread (h : Agree os os') {i : ℕ} {th : Thread V F S}
    (hth : os.threads[i]? = some th) :
    ∃ th', os'.threads[i]? = some th' ∧ th'.context = th.context := by
  have hget : os'.contexts[i]? = some th.context := by
    rw [← h.contexts, OperatingSystem.contexts, List.getElem?_map, hth, Option.map_some]
  rw [OperatingSystem.contexts, List.getElem?_map] at hget
  exact Option.map_eq_some_iff.mp hget

theorem Agree.length_threads (h : Agree os os') : os.threads.length = os'.threads.length := by
  have hlen := congrArg List.length h.contexts
  rwa [OperatingSystem.contexts, OperatingSystem.contexts, List.length_map, List.length_map]
    at hlen

/-- Equations between lists over the threads, thread by thread. -/
theorem Agree.map_eq_map (h : Agree os os') {α : Type} {f g : Thread V F S → α}
    (hfg : ∀ (i : ℕ) (th th' : Thread V F S), os.threads[i]? = some th →
      os'.threads[i]? = some th' → th'.context = th.context → f th = g th') :
    os.threads.map f = os'.threads.map g := by
  apply List.ext_getElem
  · rw [List.length_map, List.length_map, h.length_threads]
  · intro i hi hi'
    rw [List.length_map] at hi
    obtain ⟨th', hth', hctx⟩ := h.getElem?_thread (List.getElem?_eq_getElem hi)
    rw [List.getElem_map, List.getElem_map]
    obtain ⟨hlt, rfl⟩ := List.getElem?_eq_some_iff.mp hth'
    exact hfg i _ _ (List.getElem?_eq_getElem hi) hth' hctx

/-- Numbers do not depend on how the heaps are called. -/
theorem heapNumber_heapIds_map {σ : ℕ → ℕ} {heaps : List ℕ} (hσ : Set.InjOn σ {i | i ∈ heaps})
    {i : ℕ} (hi : i ∈ heaps) :
    heapNumber (heapIds (heaps.map σ)) (σ i) = heapNumber (heapIds heaps) i := by
  rw [heapIds_map heaps hσ, heapNumber, heapNumber, idxOf_map _ (mem_heapIds_iff.mpr hi)]
  exact hσ.mono fun j hj => mem_heapIds_iff.mp hj

/-- **Dumps ignore which objects the heaps are.** -/
theorem stateDump_congr (h : Agree os os') {σ : ℕ → ℕ} (hσ : HeapMap insp w w' os os' σ)
    (hmap : MapsThreads os os' (fun _ => True) σ) :
    os.stateDump insp w = os'.stateDump insp w' := by
  have hheaps : os.heaps.map σ = os'.heaps := by
    rw [OperatingSystem.heaps, List.map_map]
    exact h.map_eq_map fun i th th' hth hth' _ => hmap i th th' hth hth' trivial
  have hids : heapIds os'.heaps = (heapIds os.heaps).map σ := by
    rw [← hheaps, heapIds_map _ hσ.bij.injOn]
  have hctx : os.threads.map (contextDump insp (heapNumber (heapIds os.heaps))) =
      os'.threads.map (contextDump insp (heapNumber (heapIds os'.heaps))) := by
    refine h.map_eq_map fun i th th' hth hth' hctx => ?_
    have hmem : th.heap ∈ os.heaps := List.mem_map_of_mem (List.mem_of_getElem? hth)
    rw [contextDump, contextDump, hctx, ← hmap i th th' hth hth' trivial, ← hheaps,
      heapNumber_heapIds_map hσ.bij.injOn hmem]
  have hcontents : ((heapIds os.heaps).map fun i => (w.heaps[i]?).map insp.dict) =
      (heapIds os'.heaps).map fun i => (w'.heaps[i]?).map insp.dict := by
    rw [hids, List.map_map]
    exact List.map_congr_left fun i hi => (hσ.contents i (mem_heapIds_iff.mp hi)).symm
  unfold OperatingSystem.heaps at hctx hcontents
  have hchoices := h.choices
  unfold OperatingSystem.stateDump
  simp only [hctx, hcontents, h.current, h.stdout, h.persist, h.buf]
  cases hc : os.choices with
  | none =>
    rw [hc] at hchoices
    cases hc' : os'.choices with
    | none => rfl
    | some c' =>
      rw [hc'] at hchoices
      cases hchoices
  | some c =>
    rw [hc] at hchoices
    cases hc' : os'.choices with
    | none =>
      rw [hc'] at hchoices
      cases hchoices
    | some c' =>
      rw [hc'] at hchoices
      cases hchoices with
      | some hperm => rw [Option.map_some, Option.map_some, sortedKeys_perm hperm]

omit [DecidableEq V] in
theorem heapMap_of_heapIds {σ : ℕ → ℕ}
    (hbij : Set.BijOn σ {i | i ∈ heapIds os.heaps} {i | i ∈ heapIds os'.heaps})
    (hcontents : ∀ i ∈ heapIds os.heaps,
      (w'.heaps[σ i]?).map insp.dict = (w.heaps[i]?).map insp.dict) :
    HeapMap insp w w' os os' σ := by
  refine ⟨?_, fun i hi => hcontents i (mem_heapIds_iff.mpr hi)⟩
  simpa only [mem_heapIds_iff] using hbij

omit [DecidableEq V] in
/-- The dump of a live thread shows the number of its heap. -/
theorem number_of_contextDump {number number' : ℕ → ℕ} {th th' : Thread V F S}
    (hctx : th'.context = th.context) (hlive : th.context.Live)
    (h : contextDump insp number th = contextDump insp number' th') :
    number th.heap = number' th'.heap := by
  rw [contextDump, contextDump, hctx] at h
  cases hgen : th.context with
  | start frame =>
    rw [hgen] at h
    injection Option.some.inj h
  | suspended frame call =>
    rw [hgen] at h
    injection Option.some.inj h
  | finished => exact absurd hgen hlive

/-- **Heaps with the same number correspond.** -/
theorem exists_heapMap (h : Agree os os') {d : Dump V D} (hd : os.stateDump insp w = some d)
    (hd' : os'.stateDump insp w' = some d) :
    ∃ σ, HeapMap insp w w' os os' σ ∧ MapsThreads os os' Gen.Live σ := by
  obtain ⟨c, -, hc⟩ := Option.map_eq_some_iff.mp hd
  obtain ⟨c', -, rfl⟩ := Option.map_eq_some_iff.mp hd'
  injection hc with hcurrent hchoices hctx hcontents
  change os.threads.map (contextDump insp (heapNumber (heapIds os.heaps))) =
    os'.threads.map (contextDump insp (heapNumber (heapIds os'.heaps))) at hctx
  change (heapIds os.heaps).map _ = (heapIds os'.heaps).map _ at hcontents
  have hlen : (heapIds os.heaps).length = (heapIds os'.heaps).length := by
    simpa using congrArg List.length hcontents
  obtain ⟨σ, hbij, hids⟩ := exists_bijOn_of_nodup (nodup_heapIds _) (nodup_heapIds _) hlen
  refine ⟨σ, heapMap_of_heapIds hbij ?_, ?_⟩
  · intro i hi
    rw [hids, List.map_map, List.map_inj_left] at hcontents
    exact (hcontents i hi).symm
  · intro i th th' hth hth' hlive
    have hmem : th.heap ∈ heapIds os.heaps :=
      mem_heapIds_iff.mpr (List.mem_map_of_mem (List.mem_of_getElem? hth))
    have hnumber : heapNumber (heapIds os.heaps) th.heap =
        heapNumber (heapIds os'.heaps) th'.heap := by
      obtain ⟨th'', hth'', hsame⟩ := h.getElem?_thread hth
      rw [hth'] at hth''
      cases hth''
      have hdump := congrArg (fun l => l[i]?) hctx
      simp only [List.getElem?_map, hth, hth', Option.map_some, Option.some.injEq] at hdump
      exact number_of_contextDump hsame hlive hdump
    rw [heapNumber, heapNumber, Nat.add_right_cancel_iff, ← idxOf_map hbij.injOn hmem, ← hids]
      at hnumber
    exact (List.idxOf_inj (hbij.mapsTo hmem)).mp hnumber

/-- **Heap numbering is canonical**: states that agree otherwise have the same dump if there is a
bijection between their heaps that preserves contents and maps the heaps of the threads; and if they
have the same dump, there is one that maps the heaps of the live threads, so that the same live
threads share memory. -/
theorem stateDump_canonical (h : Agree os os') :
    ((∃ σ, HeapMap insp w w' os os' σ ∧ MapsThreads os os' (fun _ => True) σ) →
      os.stateDump insp w = os'.stateDump insp w') ∧
    ∀ d, os.stateDump insp w = some d → os'.stateDump insp w' = some d →
      (∃ σ, HeapMap insp w w' os os' σ ∧ MapsThreads os os' Gen.Live σ) ∧
      ∀ (i j : ℕ) (a a' b b' : Thread V F S), os.threads[i]? = some a →
        os'.threads[i]? = some a' → os.threads[j]? = some b → os'.threads[j]? = some b' →
        a.context.Live → b.context.Live → (a.heap = b.heap ↔ a'.heap = b'.heap) := by
  refine ⟨fun ⟨σ, hσ, hmap⟩ => stateDump_congr h hσ hmap, fun d hd hd' => ?_⟩
  obtain ⟨σ, hσ, hmap⟩ := exists_heapMap h hd hd'
  refine ⟨⟨σ, hσ, hmap⟩, fun i j a a' b b' ha ha' hb hb' hla hlb => ?_⟩
  rw [← hmap i a a' ha ha' hla, ← hmap j b b' hb hb' hlb]
  have hmema : a.heap ∈ os.heaps := List.mem_map_of_mem (List.mem_of_getElem? ha)
  have hmemb : b.heap ∈ os.heaps := List.mem_map_of_mem (List.mem_of_getElem? hb)
  exact (hσ.bij.injOn.eq_iff hmema hmemb).symm

end Dump

/-- Two threads that have not started and share a heap, after `sys_sched`. -/
def sharedThreads (heap : ℕ) : OperatingSystem (Option ℕ) Unit ℕ where
  threads := [⟨.start 3, heap⟩, ⟨.start 8, heap⟩]
  current := 0
  choices := some (sysSched [Gen.start 3, Gen.start 8])
  devices := .init
  trace := []
  newfork := ∅

theorem stateDump_canonical_shared :
    Agree (sharedThreads 0) (sharedThreads 1) ∧
      (sharedThreads 0).stateDump ⟨fun _ => [], id, id, id⟩ ⟨[5], 0, []⟩ =
        (sharedThreads 1).stateDump ⟨fun _ => [], id, id, id⟩ ⟨[7, 5], 0, []⟩ := by
  have hagree : Agree (sharedThreads 0) (sharedThreads 1) :=
    ⟨rfl, .some (List.Perm.refl _), rfl, rfl, rfl, rfl⟩
  have heq : ∀ {heap i : ℕ}, i ∈ (sharedThreads heap).heaps → i = heap := by
    intro heap i hi
    rcases List.mem_cons.mp hi with hi | hi
    · exact hi
    · exact List.mem_singleton.mp hi
  refine ⟨hagree, (stateDump_canonical hagree).1 ⟨fun _ => 1, ⟨⟨?_, ?_, ?_⟩, ?_⟩, ?_⟩⟩
  · exact fun i _ => List.mem_cons_self
  · exact fun i hi j hj _ => (heq hi).trans (heq hj).symm
  · exact fun j hj => ⟨0, List.mem_cons_self, (heq hj).symm⟩
  · intro i hi
    rw [heq hi]
    rfl
  · intro i th th' _ hth' _
    exact (heq (List.mem_map_of_mem (List.mem_of_getElem? hth'))).symm

end Jyyos.Mosaic
