import Jyyos.Fle.Layout

/-!
# The linker's loops run over the items in order

The nested loops of a pass go over a dictionary of lists.  That dictionary is `Dict.group` of the
sections as they come (`collect_spec`), and a pass is a single loop over `items` (`ldPass_eq`),
since the label at the beginning of a section is treated like an item.
-/

namespace Jyyos.Fle

/-! ### Collecting -/

/-- The sections of the files, as they come. -/
def sectionPairs (objs : List (Str × Obj)) : List (Str × (Str × List Item)) :=
  objs.flatMap fun f => (f.2.entries.entries.filter fun e => isSection e.1).map
    fun e => (e.1, (f.1, e.2))

/-- The sections of all files. -/
def addAll (objs : List (Str × Obj)) (sections : Sections) : Sections :=
  objs.foldl (fun sections f => addObj f.1 f.2 sections) sections

theorem addAll_eq (objs : List (Str × Obj)) (sections : Sections) :
    addAll objs sections =
      (sectionPairs objs).foldl (fun d e => d.push e.1 e.2) sections := by
  induction objs generalizing sections with
  | nil => rfl
  | cons f objs ih =>
    have hobj : addObj f.1 f.2 sections =
        ((f.2.entries.entries.filter fun e => isSection e.1).map fun e => (e.1, (f.1, e.2))).foldl
          (fun d e => d.push e.1 e.2) sections := by
      rw [List.foldl_map, List.foldl_filter]
      rfl
    have hpairs : sectionPairs (f :: objs) =
        (f.2.entries.entries.filter fun e => isSection e.1).map (fun e => (e.1, (f.1, e.2))) ++
          sectionPairs objs := List.flatMap_cons
    rw [hpairs, List.foldl_append, ← hobj]
    exact ih _

/-- The files that the arguments name are read and are objects. -/
def Reads (readFle : Str → Option Obj) (objs : List (Str × Obj)) : Prop :=
  ∀ f ∈ objs, f.1 ≠ "-o".toList ∧ readFle f.1 = some f.2 ∧ f.2.type = ".obj".toList

theorem collect_cons {readFle : Str → Option Obj} {f : Str × Obj} {prev : Option Str}
    (hne : f.1 ≠ "-o".toList) (hread : readFle f.1 = some f.2) (htype : f.2.type = ".obj".toList)
    (hprev : prev ≠ some "-o".toList) (args : List Str) (sections : Sections)
    (dest : Option Str) :
    collect readFle prev (f.1 :: args) sections dest =
      collect readFle (some f.1) args (addObj f.1 f.2 sections) dest := by
  rw [collect, if_neg hne, if_neg hprev, hread]
  exact if_pos htype

theorem collect_files {readFle : Str → Option Obj} {objs : List (Str × Obj)}
    (hobjs : Reads readFle objs) (prev : Option Str) (hprev : prev ≠ some "-o".toList)
    (sections : Sections) (dest : Option Str) :
    collect readFle prev (objs.map Prod.fst) sections dest =
      .ok (addAll objs sections, dest) := by
  induction objs generalizing prev sections with
  | nil => rfl
  | cons f objs ih =>
    obtain ⟨hne, hread, htype⟩ := hobjs f List.mem_cons_self
    rw [List.map_cons, collect_cons hne hread htype hprev]
    apply ih (fun g hg => hobjs g (List.mem_cons_of_mem _ hg))
    simpa using hne

theorem collect_dest {readFle : Str → Option Obj} {objs : List (Str × Obj)}
    (hobjs : Reads readFle objs) {dest : Str} (hdest : dest ≠ "-o".toList) (args : List Str)
    (prev : Option Str) (hprev : prev ≠ some "-o".toList) (sections : Sections)
    (d : Option Str) :
    collect readFle prev (objs.map Prod.fst ++ "-o".toList :: dest :: args) sections d =
      collect readFle (some dest) args (addAll objs sections) (some dest) := by
  induction objs generalizing prev sections with
  | nil =>
    rw [List.map_nil, List.nil_append, collect, if_pos rfl, collect, if_neg hdest, if_pos rfl]
    rfl
  | cons f objs ih =>
    obtain ⟨hne, hread, htype⟩ := hobjs f List.mem_cons_self
    rw [List.map_cons, List.cons_append, collect_cons hne hread htype hprev]
    apply ih (fun g hg => hobjs g (List.mem_cons_of_mem _ hg))
    simpa using hne

/-- **The linker collects the sections by name**, in the order in which they come. -/
theorem collect_spec {readFle : Str → Option Obj} {objs₁ objs₂ : List (Str × Obj)}
    (hobjs : Reads readFle (objs₁ ++ objs₂)) {dest : Str} (hdest : dest ≠ "-o".toList) :
    collect readFle none (objs₁.map Prod.fst ++ "-o".toList :: dest :: objs₂.map Prod.fst)
      Dict.empty none = .ok (Dict.group (sectionPairs (objs₁ ++ objs₂)), some dest) := by
  have h₁ : Reads readFle objs₁ := fun f hf => hobjs f (List.mem_append_left _ hf)
  have h₂ : Reads readFle objs₂ := fun f hf => hobjs f (List.mem_append_right _ hf)
  rw [collect_dest h₁ hdest _ _ (by simp), collect_files h₂ _ (by simpa using hdest)]
  have happ : addAll objs₂ (addAll objs₁ Dict.empty) = addAll (objs₁ ++ objs₂) Dict.empty :=
    List.foldl_append.symm
  rw [happ, addAll_eq]
  rfl

/-! ### One loop -/

theorem firstKeys_sectionPairs (objs : List (Str × Obj)) :
    Dict.firstKeys (sectionPairs objs) = sectionNames objs := by
  rw [Dict.firstKeys, sectionPairs, sectionNames, List.map_flatMap]
  congr 1
  apply congrArg fun g => objs.flatMap g
  funext f
  rw [List.map_map, Dict.keys, List.filter_map]
  rfl

theorem valuesAt_sectionPairs (objs : List (Str × Obj)) {secName : Str}
    (hsec : isSection secName) :
    Dict.valuesAt (sectionPairs objs) secName =
      objs.flatMap fun f => (f.2.entries.get? secName).toList.map fun body => (f.1, body) := by
  rw [Dict.valuesAt, sectionPairs, List.filter_flatMap, List.map_flatMap]
  congr 1
  funext f
  rw [List.filter_map, List.map_map, List.filter_filter]
  have hfilter : f.2.entries.entries.filter
      (fun e => ((fun x : Str × (Str × List Item) => decide (x.1 = secName)) ∘
        fun e => (e.1, (f.1, e.2))) e && isSection e.1) =
      f.2.entries.entries.filter fun e => e.1 = secName := by
    apply List.filter_congr
    intro e _
    by_cases h : e.1 = secName
    · simp [h, hsec]
    · simp [h]
  rw [hfilter, Dict.filter_eq_find f.2.entries.nodup, List.map_map]
  rfl

theorem isSection_of_mem {objs : List (Str × Obj)} {secName : Str}
    (h : secName ∈ sectionNames objs) : isSection secName := by
  rw [sectionNames, Dict.mem_firsts, List.mem_flatMap] at h
  obtain ⟨f, -, hf⟩ := h
  exact (List.mem_filter.mp hf).2

theorem foldlM_flatMap {ε α β σ : Type*} (f : α → List β) (g : σ → β → Except ε σ)
    (l : List α) (s : σ) :
    (l.flatMap f).foldlM g s = l.foldlM (fun s a => (f a).foldlM g s) s := by
  induction l generalizing s with
  | nil => rfl
  | cons a l ih =>
    rw [List.flatMap_cons, List.foldlM_append, List.foldlM_cons]
    congr 1
    funext s
    exact ih s

theorem foldlM_congr {ε α σ : Type*} {f g : σ → α → Except ε σ}
    {l : List α} (h : ∀ a ∈ l, ∀ s, f s a = g s a) (s : σ) : l.foldlM f s = l.foldlM g s := by
  induction l generalizing s with
  | nil => rfl
  | cons a l ih =>
    rw [List.foldlM_cons, List.foldlM_cons, h a List.mem_cons_self]
    congr 1
    funext s
    exact ih (fun b hb => h b (List.mem_cons_of_mem _ hb)) s

/-- One step of the single loop. -/
def ldStep (iter : ℕ) (st : Ld) (x : Str × Item) : Except Error Ld := ldItem iter x.1 st x.2

theorem ldBody_eq (iter : ℕ) (secName : Str) (st : Ld) (body : Str × List Item) :
    ldBody iter secName st body =
      (sectionItems body.1 secName body.2).foldlM (ldStep iter) st := by
  show _ = (body.2.map fun item => (body.1, item)).foldlM (ldStep iter)
    (st.define (localKey body.1 (sectionLabel secName)))
  rw [List.foldlM_map]
  rfl

/-- **A pass is one loop over the items.** -/
theorem ldPass_eq (iter : ℕ) (objs : List (Str × Obj)) (symbols : Dict Str Val) :
    ldPass iter (Dict.group (sectionPairs objs)) symbols =
      (items objs).foldlM (ldStep iter) ⟨symbols, []⟩ := by
  rw [ldPass, Dict.entries_group, firstKeys_sectionPairs, List.foldlM_map, items, foldlM_flatMap]
  refine foldlM_congr (fun secName hsec st => ?_) _
  rw [valuesAt_sectionPairs objs (isSection_of_mem hsec), foldlM_flatMap, foldlM_flatMap]
  refine foldlM_congr (fun f _ st => ?_) _
  rw [foldlM_flatMap, List.foldlM_map]
  refine foldlM_congr (fun body _ st => ?_) _
  exact ldBody_eq iter secName st (f.1, body)

end Jyyos.Fle
