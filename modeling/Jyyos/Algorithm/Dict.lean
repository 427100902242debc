import Mathlib.Data.List.Induction
import Mathlib.Data.List.Nodup

/-!
# Insertion-ordered dictionaries

The dictionaries of Python: a list of entries with pairwise distinct keys, in the order in which
the keys were first set.  `set` is `d[k] = v`, which changes the value in place when the key is
there and appends an entry otherwise; `ofList` is `dict(pairs)` and `union` is `d | e`.
-/

namespace Jyyos

/-- A dictionary: entries in insertion order, no key twice. -/
structure Dict (K V : Type*) where
  entries : List (K × V)
  nodup : (entries.map Prod.fst).Nodup

namespace Dict

variable {K V : Type*}

/-- The dictionary without entries. -/
def empty : Dict K V := ⟨[], List.nodup_nil⟩

/-- The keys in insertion order. -/
def keys (d : Dict K V) : List K := d.entries.map Prod.fst

theorem keys_nodup (d : Dict K V) : d.keys.Nodup := d.nodup

@[ext]
theorem ext {d e : Dict K V} (h : d.entries = e.entries) : d = e := by
  cases d; cases e; cases h; rfl

/-- `{k: f(v) for k, v in d.items()}`. -/
def map {W : Type*} (f : V → W) (d : Dict K V) : Dict K W :=
  ⟨d.entries.map fun e => (e.1, f e.2), by
    have hfst : (Prod.fst ∘ fun e : K × V => (e.1, f e.2)) = Prod.fst := rfl
    rw [List.map_map, hfst]
    exact d.nodup⟩

@[simp]
theorem keys_map {W : Type*} (f : V → W) (d : Dict K V) : (d.map f).keys = d.keys := List.map_map

variable [DecidableEq K]

/-- The value at a key in a list of entries. -/
def find (k : K) : List (K × V) → Option V
  | [] => none
  | e :: es => if e.1 = k then some e.2 else find k es

/-- `d.get(k)`. -/
def get? (d : Dict K V) (k : K) : Option V := find k d.entries

/-- Set a key in a list of entries. -/
def setEntry (k : K) (v : V) : List (K × V) → List (K × V)
  | [] => [(k, v)]
  | e :: es => if e.1 = k then (k, v) :: es else e :: setEntry k v es

theorem mem_keys_setEntry {k x : K} {v : V} (es : List (K × V)) :
    x ∈ (setEntry k v es).map Prod.fst ↔ x = k ∨ x ∈ es.map Prod.fst := by
  induction es with
  | nil => simp [setEntry]
  | cons e es ih =>
    rw [setEntry]
    split_ifs with h
    · simp only [List.map_cons, List.mem_cons, h]
      exact ⟨fun hx => Or.inr hx, fun hx => hx.elim Or.inl id⟩
    · simp only [List.map_cons, List.mem_cons, ih]
      exact ⟨fun hx => by rcases hx with hx | hx | hx <;> simp [hx],
        fun hx => by rcases hx with hx | hx | hx <;> simp [hx]⟩

theorem nodup_setEntry (k : K) (v : V) {es : List (K × V)} (h : (es.map Prod.fst).Nodup) :
    ((setEntry k v es).map Prod.fst).Nodup := by
  induction es with
  | nil => simp [setEntry]
  | cons e es ih =>
    rw [List.map_cons, List.nodup_cons] at h
    rw [setEntry]
    split_ifs with hk
    · rw [List.map_cons, List.nodup_cons]
      exact ⟨hk ▸ h.1, h.2⟩
    · rw [List.map_cons, List.nodup_cons, mem_keys_setEntry]
      exact ⟨fun hx => hx.elim hk h.1, ih h.2⟩

/-- `d[k] = v`. -/
def set (d : Dict K V) (k : K) (v : V) : Dict K V :=
  ⟨setEntry k v d.entries, nodup_setEntry k v d.nodup⟩

/-- `d | dict(es)`: the entries set one after the other. -/
def update (d : Dict K V) (es : List (K × V)) : Dict K V :=
  es.foldl (fun d e => d.set e.1 e.2) d

/-- `dict(es)`. -/
def ofList (es : List (K × V)) : Dict K V := empty.update es

/-- `d | e`. -/
def union (d e : Dict K V) : Dict K V := d.update e.entries

/-! ### Reading -/

@[simp]
theorem get?_empty (k : K) : (empty : Dict K V).get? k = none := rfl

theorem find_setEntry_self (k : K) (v : V) (es : List (K × V)) :
    find k (setEntry k v es) = some v := by
  induction es with
  | nil => simp [setEntry, find]
  | cons e es ih =>
    rw [setEntry]
    split_ifs with h
    · simp [find]
    · rw [find, if_neg h, ih]

theorem find_setEntry_of_ne {k k' : K} (hne : k' ≠ k) (v : V) (es : List (K × V)) :
    find k' (setEntry k v es) = find k' es := by
  induction es with
  | nil => simp [setEntry, find, hne.symm]
  | cons e es ih =>
    rw [setEntry]
    split_ifs with h
    · rw [find, if_neg hne.symm, find, if_neg (h ▸ hne.symm)]
    · rw [find, find, ih]

@[simp]
theorem get?_set_self (d : Dict K V) (k : K) (v : V) : (d.set k v).get? k = some v :=
  find_setEntry_self k v d.entries

theorem get?_set_of_ne (d : Dict K V) {k k' : K} (hne : k' ≠ k) (v : V) :
    (d.set k v).get? k' = d.get? k' :=
  find_setEntry_of_ne hne v d.entries

/-- A set key reads the new value, every other key what it read before. -/
theorem get?_set (d : Dict K V) (k k' : K) (v : V) :
    (d.set k v).get? k' = if k' = k then some v else d.get? k' := by
  split_ifs with h
  · rw [h, get?_set_self]
  · exact get?_set_of_ne d h v

theorem find_eq_none_iff {k : K} {es : List (K × V)} :
    find k es = none ↔ k ∉ es.map Prod.fst := by
  induction es with
  | nil => simp [find]
  | cons e es ih =>
    rw [find, List.map_cons, List.mem_cons, not_or]
    split_ifs with h
    · simp [h]
    · rw [ih]
      exact ⟨fun hx => ⟨fun hk => h hk.symm, hx⟩, fun hx => hx.2⟩

theorem get?_eq_none_iff {d : Dict K V} {k : K} : d.get? k = none ↔ k ∉ d.keys :=
  find_eq_none_iff

theorem mem_of_find {k : K} {v : V} {es : List (K × V)} (h : find k es = some v) :
    (k, v) ∈ es := by
  induction es with
  | nil => exact absurd h (by simp [find])
  | cons e es ih =>
    rw [find] at h
    split_ifs at h with hk
    · obtain ⟨a, b⟩ := e
      simp only [Option.some.injEq] at h hk
      rw [hk, h]
      exact List.mem_cons_self ..
    · exact List.mem_cons_of_mem _ (ih h)

theorem find_of_mem {k : K} {v : V} {es : List (K × V)} (hnd : (es.map Prod.fst).Nodup)
    (h : (k, v) ∈ es) : find k es = some v := by
  induction es with
  | nil => exact absurd h List.not_mem_nil
  | cons e es ih =>
    rw [List.map_cons, List.nodup_cons] at hnd
    rcases List.mem_cons.mp h with rfl | hmem
    · simp [find]
    · have hne : e.1 ≠ k := fun hk => hnd.1 (hk ▸ List.mem_map_of_mem hmem)
      rw [find, if_neg hne, ih hnd.2 hmem]

/-- The entries at a key: one or none. -/
theorem filter_eq_find {es : List (K × V)} (hnd : (es.map Prod.fst).Nodup) (k : K) :
    es.filter (fun e => e.1 = k) = (find k es).toList.map fun v => (k, v) := by
  induction es with
  | nil => rfl
  | cons e es ih =>
    rw [List.map_cons, List.nodup_cons] at hnd
    rw [find, List.filter_cons]
    by_cases h : e.1 = k
    · have hnone : find k es = none := find_eq_none_iff.mpr (h ▸ hnd.1)
      rw [ih hnd.2, hnone]
      simp [← h]
    · simpa [h] using ih hnd.2

theorem get?_eq_some_iff {d : Dict K V} {k : K} {v : V} :
    d.get? k = some v ↔ (k, v) ∈ d.entries :=
  ⟨mem_of_find, find_of_mem d.nodup⟩

theorem find_map {W : Type*} (f : V → W) (k : K) (es : List (K × V)) :
    find k (es.map fun e => (e.1, f e.2)) = (find k es).map f := by
  induction es with
  | nil => rfl
  | cons e es ih =>
    rw [List.map_cons, find, find]
    split_ifs
    · rfl
    · exact ih

@[simp]
theorem get?_map {W : Type*} (f : V → W) (d : Dict K V) (k : K) :
    (d.map f).get? k = (d.get? k).map f :=
  find_map f k d.entries

/-! ### Deleting -/

/-- `del d[k]`, for a key that is there. -/
def erase (d : Dict K V) (k : K) : Dict K V :=
  ⟨d.entries.filter fun e => e.1 ≠ k, d.nodup.sublist (List.filter_sublist.map _)⟩

/-- A deleted key is gone, every other key reads what it read before. -/
theorem get?_erase (d : Dict K V) (k k' : K) :
    (d.erase k).get? k' = if k' = k then none else d.get? k' := by
  cases h : (d.erase k).get? k' with
  | none =>
    split_ifs with hk
    · rfl
    · rw [eq_comm, get?_eq_none_iff]
      rw [get?_eq_none_iff] at h
      intro hmem
      obtain ⟨e, he, rfl⟩ := List.mem_map.mp hmem
      exact h (List.mem_map_of_mem (List.mem_filter.mpr ⟨he, by simpa using hk⟩))
  | some v =>
    have hmem := List.mem_filter.mp (get?_eq_some_iff.mp h)
    have hne : k' ≠ k := by simpa using hmem.2
    rw [if_neg hne]
    exact (get?_eq_some_iff.mpr hmem.1).symm

/-! ### Setting many keys -/

/-- For entries with distinct keys, `d | dict(es)` reads the new entry first. -/
theorem get?_update (es : List (K × V)) (hnd : (es.map Prod.fst).Nodup) (k : K) :
    ∀ d : Dict K V, (d.update es).get? k = (find k es).or (d.get? k) := by
  induction es with
  | nil => intro d; rfl
  | cons e es ih =>
    intro d
    rw [List.map_cons, List.nodup_cons] at hnd
    show ((d.set e.1 e.2).update es).get? k = _
    rw [ih hnd.2, get?_set, find]
    by_cases hk : e.1 = k
    · have hnone : find k es = none := find_eq_none_iff.mpr (hk ▸ hnd.1)
      rw [if_pos hk, if_pos hk.symm, hnone]
      rfl
    · rw [if_neg hk, if_neg (fun h => hk h.symm)]

theorem get?_union (d e : Dict K V) (k : K) : (d.union e).get? k = (e.get? k).or (d.get? k) :=
  get?_update e.entries e.nodup k d

theorem get?_ofList {es : List (K × V)} (hnd : (es.map Prod.fst).Nodup) (k : K) :
    (ofList es).get? k = find k es := by
  rw [ofList, get?_update es hnd, get?_empty, Option.or_none]

theorem setEntry_of_not_mem {k : K} {v : V} {es : List (K × V)} (h : k ∉ es.map Prod.fst) :
    setEntry k v es = es ++ [(k, v)] := by
  induction es with
  | nil => rfl
  | cons e es ih =>
    rw [List.map_cons, List.mem_cons, not_or] at h
    rw [setEntry, if_neg (fun hk => h.1 hk.symm), ih h.2, List.cons_append]

theorem entries_update (es : List (K × V)) : ∀ d : Dict K V,
    ((d.entries ++ es).map Prod.fst).Nodup → (d.update es).entries = d.entries ++ es := by
  induction es with
  | nil => intro d _; rw [List.append_nil]; rfl
  | cons e es ih =>
    intro d hnd
    have hk : e.1 ∉ d.entries.map Prod.fst := by
      rw [List.map_append, List.nodup_append] at hnd
      exact fun h => hnd.2.2 e.1 h e.1 (List.mem_cons_self ..) rfl
    have hset : (d.set e.1 e.2).entries = d.entries ++ [e] := setEntry_of_not_mem hk
    show ((d.set e.1 e.2).update es).entries = _
    rw [ih _ (by rw [hset, List.append_assoc]; exact hnd), hset, List.append_assoc]
    rfl

/-- Pairs with distinct keys keep their order. -/
theorem entries_ofList {es : List (K × V)} (hnd : (es.map Prod.fst).Nodup) :
    (ofList es).entries = es :=
  entries_update es (empty : Dict K V) hnd

theorem mem_of_mem_setEntry {k : K} {v : V} {e : K × V} {es : List (K × V)}
    (h : e ∈ setEntry k v es) : e = (k, v) ∨ e ∈ es := by
  induction es with
  | nil => exact Or.inl (List.mem_singleton.mp h)
  | cons e' es ih =>
    rw [setEntry] at h
    split_ifs at h
    · rcases List.mem_cons.mp h with h | h
      · exact Or.inl h
      · exact Or.inr (List.mem_cons_of_mem _ h)
    · rcases List.mem_cons.mp h with h | h
      · exact Or.inr (h ▸ List.mem_cons_self ..)
      · exact (ih h).imp_right (List.mem_cons_of_mem _)

theorem mem_of_mem_update {e : K × V} (es : List (K × V)) : ∀ d : Dict K V,
    e ∈ (d.update es).entries → e ∈ d.entries ∨ e ∈ es := by
  induction es with
  | nil => exact fun d h => Or.inl h
  | cons e' es ih =>
    intro d h
    rcases ih (d.set e'.1 e'.2) h with h | h
    · rcases mem_of_mem_setEntry h with h | h
      · exact Or.inr (h ▸ List.mem_cons_self ..)
      · exact Or.inl h
    · exact Or.inr (List.mem_cons_of_mem _ h)

theorem mem_of_get?_ofList {k : K} {v : V} {es : List (K × V)} (h : (ofList es).get? k = some v) :
    (k, v) ∈ es :=
  (mem_of_mem_update es empty (get?_eq_some_iff.mp h)).resolve_left List.not_mem_nil

theorem eq_of_get?_singleton {k l : K} {v x : V} (h : (ofList [(k, v)]).get? l = some x) :
    x = v :=
  (Prod.mk.inj (List.mem_singleton.mp (mem_of_get?_ofList h))).2

theorem setEntry_map {W : Type*} (f : V → W) (k : K) (v : V) (es : List (K × V)) :
    setEntry k (f v) (es.map fun e => (e.1, f e.2)) =
      (setEntry k v es).map fun e => (e.1, f e.2) := by
  induction es with
  | nil => rfl
  | cons e es ih =>
    rw [List.map_cons, setEntry, setEntry]
    split_ifs
    · rfl
    · rw [ih, List.map_cons]

theorem map_update {W : Type*} (f : V → W) (es : List (K × V)) : ∀ d : Dict K V,
    (d.update es).map f = (d.map f).update (es.map fun e => (e.1, f e.2)) := by
  induction es with
  | nil => intro d; rfl
  | cons e es ih =>
    intro d
    have hset : (d.set e.1 e.2).map f = (d.map f).set e.1 (f e.2) :=
      Dict.ext (setEntry_map f e.1 e.2 d.entries).symm
    show ((d.set e.1 e.2).update es).map f = ((d.map f).set e.1 (f e.2)).update _
    rw [ih, hset]

/-- Mapping the values commutes with `dict`. -/
theorem map_ofList {W : Type*} (f : V → W) (es : List (K × V)) :
    (ofList es).map f = ofList (es.map fun e => (e.1, f e.2)) :=
  map_update f es empty

theorem get?_update_of_not_mem {es : List (K × V)} {k : K} (h : k ∉ es.map Prod.fst) :
    ∀ d : Dict K V, (d.update es).get? k = d.get? k := by
  induction es with
  | nil => intro d; rfl
  | cons e es ih =>
    intro d
    rw [List.map_cons, List.mem_cons, not_or] at h
    show ((d.set e.1 e.2).update es).get? k = d.get? k
    rw [ih h.2, get?_set_of_ne d h.1]

/-- When no key is given two different values, each key given reads its value. -/
theorem get?_update_of_mem {es : List (K × V)} {k : K} {v : V}
    (hes : ∀ v', (k, v') ∈ es → v' = v) (h : (k, v) ∈ es) :
    ∀ d : Dict K V, (d.update es).get? k = some v := by
  induction es with
  | nil => exact absurd h List.not_mem_nil
  | cons e es ih =>
    intro d
    have hes' : ∀ v', (k, v') ∈ es → v' = v := fun v' hv' => hes v' (List.mem_cons_of_mem _ hv')
    show ((d.set e.1 e.2).update es).get? k = some v
    by_cases hk : k ∈ es.map Prod.fst
    · -- the last of the entries for `k` comes later
      obtain ⟨⟨k', v'⟩, hmem, rfl⟩ := List.mem_map.mp hk
      exact ih hes' (hes' v' hmem ▸ hmem) _
    · rw [get?_update_of_not_mem hk]
      rcases List.mem_cons.mp h with rfl | hmem
      · exact get?_set_self d _ _
      · exact absurd (List.mem_map_of_mem hmem) hk

theorem get?_update_ne_none {k : K} (es : List (K × V)) : ∀ d : Dict K V,
    d.get? k ≠ none ∨ k ∈ es.map Prod.fst → (d.update es).get? k ≠ none := by
  induction es with
  | nil =>
    intro d h
    exact h.resolve_right List.not_mem_nil
  | cons e es ih =>
    intro d h
    apply ih (d.set e.1 e.2)
    rw [get?_set]
    split_ifs with hk
    · exact Or.inl (Option.some_ne_none _)
    · rw [List.map_cons, List.mem_cons] at h
      exact h.imp_right fun hmem => hmem.resolve_left hk

theorem keys_ofList_eq_nil_iff {es : List (K × V)} : (ofList es).keys = [] ↔ es = [] := by
  constructor
  · intro h
    cases es with
    | nil => rfl
    | cons e es =>
      have hne : (ofList (e :: es)).get? e.1 ≠ none :=
        get?_update_ne_none (e :: es) empty (Or.inr (by simp))
      rw [ne_eq, get?_eq_none_iff, h] at hne
      exact absurd List.not_mem_nil hne
  · rintro rfl
    rfl

/-- Some of the entries of a dictionary, each with its value there. -/
theorem get?_ofList_of_sublist {d : Dict K V} {es : List (K × V)} (h : es.Sublist d.entries)
    (k : K) : (ofList es).get? k = none ∨ (ofList es).get? k = d.get? k := by
  cases hget : (ofList es).get? k with
  | none => exact Or.inl rfl
  | some v => exact Or.inr (get?_eq_some_iff.mpr (h.subset (mem_of_get?_ofList hget))).symm

theorem get?_ofList_filter (d : Dict K V) (keep : K → Bool) (k : K) :
    (ofList (d.entries.filter fun e => keep e.1)).get? k =
      if keep k then d.get? k else none := by
  have hnd : ((d.entries.filter fun e => keep e.1).map Prod.fst).Nodup :=
    d.nodup.sublist (List.filter_sublist.map Prod.fst)
  rw [get?_ofList hnd]
  split_ifs with hk
  · cases hget : d.get? k with
    | none =>
      rw [find_eq_none_iff]
      intro hmem
      exact get?_eq_none_iff.mp hget ((List.filter_sublist.map Prod.fst).subset hmem)
    | some v =>
      exact find_of_mem hnd (List.mem_filter.mpr ⟨get?_eq_some_iff.mp hget, hk⟩)
  · rw [find_eq_none_iff]
    intro hmem
    obtain ⟨e, he, rfl⟩ := List.mem_map.mp hmem
    exact hk (List.mem_filter.mp he).2

/-- Setting a key to the value it has changes nothing. -/
theorem set_of_get?_eq {d : Dict K V} {k : K} {v : V} (h : d.get? k = some v) : d.set k v = d := by
  have hset : ∀ es : List (K × V), find k es = some v → setEntry k v es = es := by
    intro es
    induction es with
    | nil => exact fun h => nomatch h
    | cons e es ih =>
      intro h
      rw [find] at h
      rw [setEntry]
      split_ifs at h ⊢ with hk
      · cases h
        cases hk
        rfl
      · rw [ih h]
  exact Dict.ext (hset d.entries h)

/-! ### Dictionaries of lists -/

variable {X : Type*}

/-- `d[k] += [x]` on a `defaultdict(list)`. -/
def push (d : Dict K (List X)) (k : K) (x : X) : Dict K (List X) :=
  d.set k ((d.get? k).getD [] ++ [x])

/-- The pairs pushed one after the other. -/
def group (l : List (K × X)) : Dict K (List X) := l.foldl (fun d e => d.push e.1 e.2) empty

theorem setEntry_map_of_mem {ks : List K} (hnd : ks.Nodup) {k : K} (hk : k ∈ ks) (f : K → V)
    (v : V) : setEntry k v (ks.map fun k => (k, f k)) =
      ks.map fun k' => (k', if k' = k then v else f k') := by
  induction ks with
  | nil => exact absurd hk List.not_mem_nil
  | cons k' ks ih =>
    rw [List.nodup_cons] at hnd
    rw [List.map_cons, setEntry, List.map_cons]
    by_cases heq : k' = k
    · rw [if_pos heq, if_pos heq, heq]
      congr 1
      apply List.map_congr_left
      intro x hx
      have hne : x ≠ k := fun h => hnd.1 (by rwa [heq, ← h])
      rw [if_neg hne]
    · rw [if_neg heq, if_neg heq]
      have hk' : k ∈ ks := (List.mem_cons.mp hk).resolve_left fun h => heq h.symm
      rw [ih hnd.2 hk']

theorem find_map_self {ks : List K} {k : K} (hk : k ∈ ks) (f : K → V) :
    find k (ks.map fun k => (k, f k)) = some (f k) := by
  induction ks with
  | nil => exact absurd hk List.not_mem_nil
  | cons k' ks ih =>
    rw [List.map_cons, find]
    by_cases heq : k' = k
    · rw [if_pos heq, heq]
    · rw [if_neg heq]
      exact ih ((List.mem_cons.mp hk).resolve_left fun h => heq h.symm)

/-- The elements of a list, each at its first occurrence. -/
def firsts (l : List K) : List K := l.eraseDups

theorem mem_firsts {l : List K} {k : K} : k ∈ firsts l ↔ k ∈ l := List.mem_eraseDups

/-- The keys of a list of pairs, each at its first occurrence. -/
def firstKeys (l : List (K × X)) : List K := firsts (l.map Prod.fst)

/-- The values paired with a key, in order. -/
def valuesAt (l : List (K × X)) (k : K) : List X := (l.filter fun e => e.1 = k).map Prod.snd

theorem group_concat (l : List (K × X)) (e : K × X) :
    group (l ++ [e]) = (group l).push e.1 e.2 := by
  rw [group, group, List.foldl_append]
  rfl

theorem mem_firstKeys {l : List (K × X)} {k : K} : k ∈ firstKeys l ↔ k ∈ l.map Prod.fst :=
  mem_firsts

theorem firstKeys_concat (l : List (K × X)) (e : K × X) :
    firstKeys (l ++ [e]) = if e.1 ∈ firstKeys l then firstKeys l else firstKeys l ++ [e.1] := by
  rw [firstKeys, firsts, List.map_append, List.eraseDups_append, List.map_singleton]
  by_cases h : e.1 ∈ firstKeys l
  · have hmem : e.1 ∈ l.map Prod.fst := mem_firstKeys.mp h
    have hnil : [e.1].removeAll (l.map Prod.fst) = [] := by
      rw [List.removeAll, List.filter_eq_nil_iff]
      intro k hk
      rw [List.mem_singleton.mp hk]
      simpa using hmem
    rw [if_pos h, hnil, List.eraseDups_nil, List.append_nil, firstKeys, firsts]
  · have hmem : e.1 ∉ l.map Prod.fst := fun hx => h (mem_firstKeys.mpr hx)
    have hself : [e.1].removeAll (l.map Prod.fst) = [e.1] := by
      rw [List.removeAll, List.filter_eq_self]
      intro k hk
      rw [List.mem_singleton.mp hk]
      simpa using hmem
    rw [if_neg h, hself, List.eraseDups_cons, List.filter_nil, List.eraseDups_nil, firstKeys,
      firsts]

theorem valuesAt_concat (l : List (K × X)) (e : K × X) (k : K) :
    valuesAt (l ++ [e]) k = if k = e.1 then valuesAt l k ++ [e.2] else valuesAt l k := by
  rw [valuesAt, List.filter_append, List.map_append]
  by_cases h : k = e.1
  · simp [h, valuesAt]
  · have hne : ¬ e.1 = k := fun hx => h hx.symm
    simp [h, hne, valuesAt]

theorem valuesAt_of_not_mem {l : List (K × X)} {k : K} (h : k ∉ firstKeys l) :
    valuesAt l k = [] := by
  rw [valuesAt, List.map_eq_nil_iff, List.filter_eq_nil_iff]
  intro e he hk
  exact h (mem_firstKeys.mpr (of_decide_eq_true hk ▸ List.mem_map_of_mem he))

/-- **A dictionary of lists has the keys in the order of their first occurrence**, each with what
was pushed under it. -/
theorem entries_group (l : List (K × X)) :
    (group l).entries = (firstKeys l).map fun k => (k, valuesAt l k) := by
  induction l using List.reverseRecOn with
  | nil => rfl
  | append_singleton l e ih =>
    have hkeys : (group l).entries.map Prod.fst = firstKeys l := by
      rw [ih, List.map_map]
      exact List.map_id _
    have hnd : (firstKeys l).Nodup := hkeys ▸ (group l).nodup
    rw [group_concat, firstKeys_concat]
    show setEntry e.1 ((find e.1 (group l).entries).getD [] ++ [e.2]) (group l).entries = _
    by_cases h : e.1 ∈ firstKeys l
    · -- the list at the key grows
      rw [if_pos h, ih, find_map_self h, setEntry_map_of_mem hnd h]
      apply List.map_congr_left
      intro k _
      rw [valuesAt_concat]
      split_ifs with hk
      · rw [hk]
        rfl
      · rfl
    · -- a new key comes last
      have hnone : find e.1 (group l).entries = none := find_eq_none_iff.mpr (hkeys ▸ h)
      rw [if_neg h, hnone, setEntry_of_not_mem (hkeys ▸ h), ih, List.map_append]
      congr 1
      · apply List.map_congr_left
        intro k hk
        have hne : k ≠ e.1 := fun heq => h (by rwa [← heq])
        rw [valuesAt_concat, if_neg hne]
      · rw [List.map_singleton, valuesAt_concat, if_pos rfl, valuesAt_of_not_mem h]
        rfl

end Dict

end Jyyos
