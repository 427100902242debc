import Jyyos.Fle.Equiv.Exec
import Jyyos.Fle.Equiv.Pass

/-!
# Linking and loading

The pieces put together.  For objects that can be linked, the table that the first pass leaves has
each label at its position and nothing else but the function (`get?_table`, `exists_label`); a name
in a relocation therefore means in the second pass what `addr` says (`getitem_table`), and the
second pass produces the image `linked`.  `fleLd_spec` is the result, up to the loader.
-/

namespace Jyyos.Fle

open Layout

section Linkable

variable {objs : List (Str × Obj)} (hlink : Linkable objs)
include hlink

/-! ### Items -/

omit hlink in
theorem plain_sectionLabel {secName : Str} (h : isSection secName) :
    Plain (sectionLabel secName) := by
  constructor
  · intro hdot
    obtain ⟨c, -, hc⟩ := List.mem_map.mp hdot
    split_ifs at hc with hdot'
    · exact absurd hc (by decide)
    · exact hdot' hc
  · cases secName with
    | nil => cases h
    | cons c cs =>
      have hc : c = '.' := by simpa [isSection] using h
      intro heq
      rw [hc] at heq
      have hhead : some '_' = some 'i' := congrArg List.head? heq
      exact absurd hhead (by decide)

/-- All items can be processed, those for the sections included. -/
theorem Linkable.itemOk {x : Str × Item} (hx : x ∈ items objs) : ItemOk x.2 := by
  obtain ⟨secName, hsec, hx⟩ := List.mem_flatMap.mp hx
  obtain ⟨f, hf, hx⟩ := List.mem_flatMap.mp hx
  obtain ⟨body, hbody, hx⟩ := List.mem_flatMap.mp hx
  have hsection := isSection_of_mem hsec
  rcases List.mem_cons.mp hx with rfl | hx
  · exact plain_sectionLabel hsection
  · obtain ⟨item, hitem, rfl⟩ := List.mem_map.mp hx
    have hentry := Dict.get?_eq_some_iff.mp (Option.mem_toList.mp hbody)
    exact hlink.items_ok f hf _ hentry hsection item hitem

/-! ### Labels -/

theorem Linkable.plain {e : Label × ℕ} (h : e ∈ labelsOf objs) : Plain e.1.name := by
  obtain ⟨x, hx, hpiece⟩ := List.mem_filterMap.mp (mem_of_mem_labels h)
  have hok := hlink.itemOk hx
  rcases ldStep_cases x.1 hok with ⟨l, hl, hplain, -⟩ | ⟨bs, hbs, -⟩ | ⟨r, hr, -⟩ | ⟨hnone, -⟩
  · rw [hl] at hpiece
    cases hpiece
    exact hplain
  · rw [hbs] at hpiece
    cases hpiece
  · rw [hr] at hpiece
    cases hpiece
  · rw [hnone] at hpiece
    cases hpiece

omit hlink in
/-- The global labels of the items are those of the layout. -/
theorem globals_eq (xs : List (Str × Item)) (p : ℕ) :
    globals xs = (labels fieldWidth p (pieces xs)).filterMap fun e => e.1.global? := by
  induction xs generalizing p with
  | nil => rfl
  | cons x xs ih =>
    obtain ⟨fle, item⟩ := x
    cases item with
    | globalLabel symb => exact congrArg (symb :: ·) (ih p)
    | localLabel symb => exact ih p
    | bytes ys =>
      show globals xs = _
      cases hbs : PyStr.fromhex ys with
      | none =>
        rw [pieces_cons_none (by rw [toPiece, hbs, Option.map_none])]
        exact ih p
      | some bs =>
        rw [pieces_cons_some (by rw [toPiece, hbs, Option.map_some])]
        exact ih _
    | reloc expr =>
      show globals xs = _
      cases ht : expr.target with
      | none =>
        rw [pieces_cons_none (by rw [toPiece, ht, Option.map_none])]
        exact ih p
      | some t =>
        rw [pieces_cons_some (by rw [toPiece, ht, Option.map_some])]
        exact ih _
    | other => exact ih p

omit hlink in
theorem eq_of_nodup_filterMap {α β : Type*} {f : α → Option β} {l : List α}
    (h : (l.filterMap f).Nodup) {a b : α} (ha : a ∈ l) (hb : b ∈ l) {c : β} (hfa : f a = some c)
    (hfb : f b = some c) : a = b := by
  induction l with
  | nil => exact absurd ha List.not_mem_nil
  | cons x l ih =>
    have hsub : (l.filterMap f).Sublist ((x :: l).filterMap f) :=
      (List.sublist_cons_self _ _).filterMap _
    have hhead : f x = some c → ∀ y ∈ l, f y ≠ some c := by
      intro hx y hy hfy
      rw [List.filterMap_cons_some hx, List.nodup_cons] at h
      exact h.1 (List.mem_filterMap.mpr ⟨y, hy, hfy⟩)
    rcases List.mem_cons.mp ha with rfl | ha' <;> rcases List.mem_cons.mp hb with rfl | hb'
    · rfl
    · exact absurd hfb (hhead hfa b hb')
    · exact absurd hfa (hhead hfb a ha')
    · exact ih (h.sublist hsub) ha' hb'

/-- **No label has two positions.** -/
theorem Linkable.label_one {l : Label} {p q : ℕ} (hp : (l, p) ∈ labelsOf objs)
    (hq : (l, q) ∈ labelsOf objs) : p = q := by
  cases l with
  | ofFile fle symb => exact hlink.local_one _ hp _ hq rfl rfl
  | ofAll symb =>
    -- a global label is defined once
    have honce := hlink.global_once
    rw [← globals, globals_eq _ 0] at honce
    exact congrArg Prod.snd (eq_of_nodup_filterMap honce hp hq rfl rfl)

/-! ### The table -/

/-- The table that the passes leave. -/
def table (objs : List (Str × Obj)) : Dict Str Val :=
  initSymbols.update (assignments 0 (layout objs))

/-- Every label has its position in the table. -/
theorem Linkable.get?_table {e : Label × ℕ} (he : e ∈ labelsOf objs) :
    (table objs).get? e.1.key = some (.int e.2) := by
  apply Dict.get?_update_of_mem
  · intro v hv
    obtain ⟨e', he', heq⟩ := List.mem_map.mp hv
    have hkey : e'.1.key = e.1.key := congrArg Prod.fst heq
    have hlabel : e'.1 = e.1 := Label.key_inj (hlink.plain he') (hlink.plain he) hkey
    have hpos : e'.2 = e.2 := hlink.label_one (hlabel ▸ he' : (e.1, e'.2) ∈ labelsOf objs) he
    have hval : Val.int e'.2 = v := congrArg Prod.snd heq
    rw [← hval, hpos]
  · exact List.mem_map_of_mem he

omit hlink in
/-- What is in the table is the function or a label. -/
theorem exists_label {k : Str} {v : Val} (h : (table objs).get? k = some v) :
    (k = "i32".toList ∧ v = .i32) ∨ ∃ e ∈ labelsOf objs, e.1.key = k := by
  by_cases hk : k ∈ (assignments 0 (layout objs)).map Prod.fst
  · right
    rw [assignments, List.map_map] at hk
    obtain ⟨e, he, hkey⟩ := List.mem_map.mp hk
    exact ⟨e, he, hkey⟩
  · left
    rw [table, Dict.get?_update_of_not_mem hk] at h
    have hmem := Dict.mem_of_get?_ofList h
    cases List.mem_singleton.mp hmem
    exact ⟨rfl, rfl⟩

theorem Linkable.get?_i32 : (table objs).get? "i32".toList = some .i32 := by
  rw [table, Dict.get?_update_of_not_mem]
  · rfl
  · intro hmem
    rw [assignments, List.map_map] at hmem
    obtain ⟨e, he, hkey⟩ := List.mem_map.mp hmem
    exact Label.key_ne_i32 (hlink.plain he) hkey

/-- A name that is no label of the file has no entry for the file. -/
theorem Linkable.get?_localKey {fle symb : Str} (hsymb : '.' ∉ symb)
    (h : ∀ p, (.ofFile fle symb, p) ∉ labelsOf objs) :
    (table objs).get? (localKey fle symb) = none := by
  cases hget : (table objs).get? (localKey fle symb) with
  | none => rfl
  | some v =>
    rcases exists_label hget with ⟨hi32, -⟩ | ⟨⟨l, p⟩, he, hkey⟩
    · have hdot : '.' ∈ "i32".toList := hi32 ▸ dot_mem_localKey fle symb
      exact absurd hdot (by decide)
    · have hplain := hlink.plain he
      cases l with
      | ofAll symb' =>
        have hdot : '.' ∈ (Label.ofAll symb').key := hkey ▸ dot_mem_localKey fle symb
        exact absurd hdot hplain.1
      | ofFile fle' symb' =>
        obtain ⟨rfl, rfl⟩ := localKey_inj hplain.1 hsymb hkey
        exact absurd he (h p)

/-- In the second pass the function is found in every file. -/
theorem Linkable.getitem_i32 (fle : Str) :
    getitem 1 fle (table objs) "i32".toList = .ok .i32 := by
  have hnone : (table objs).get? (localKey fle "i32".toList) = none := by
    apply hlink.get?_localKey (by decide)
    intro p hp
    exact (hlink.plain hp).2 rfl
  simp only [getitem, Nat.one_ne_zero, if_false, hnone, hlink.get?_i32]

/-- **In the second pass a name means what it should.** -/
theorem Linkable.getitem_table {r : Field} (hr : r ∈ fields (layout objs)) :
    addr objs r.fle r.name < 2 ^ 30 ∧
      getitem 1 r.fle (table objs) r.name = .ok (.int (addr objs r.fle r.name)) := by
  have hsize := hlink.size_lt
  have hlt : ∀ {l : Label} {p : ℕ}, (l, p) ∈ labelsOf objs → p < 2 ^ 30 := by
    intro l p hp
    have := le_of_mem_labels hp
    omega
  simp only [getitem, Nat.one_ne_zero, if_false, addr]
  cases hlocal : Dict.find (.ofFile r.fle r.name) (labelsOf objs) with
  | some p =>
    have hmem := Dict.mem_of_find hlocal
    have hget : (table objs).get? (localKey r.fle r.name) = some (.int p) := hlink.get?_table hmem
    rw [hget]
    exact ⟨hlt hmem, rfl⟩
  | none =>
    -- the file has no such label, so there is a global one
    have hno : ∀ p, (.ofFile r.fle r.name, p) ∉ labelsOf objs := fun p hp =>
      Dict.find_eq_none_iff.mp hlocal (List.mem_map_of_mem hp)
    obtain ⟨q, hq⟩ : ∃ q, (.ofAll r.name, q) ∈ labelsOf objs := by
      rcases hlink.resolved r hr with ⟨e, he, hlabel⟩ | ⟨e, he, hlabel⟩
      · exact absurd (hlabel ▸ he : (.ofFile r.fle r.name, e.2) ∈ labelsOf objs) (hno e.2)
      · exact ⟨e.2, hlabel ▸ he⟩
    have hdot : '.' ∉ r.name := (hlink.plain hq).1
    cases hglobal : Dict.find (.ofAll r.name) (labelsOf objs) with
    | none => exact absurd (List.mem_map_of_mem hq) (Dict.find_eq_none_iff.mp hglobal)
    | some p =>
      have hmem := Dict.mem_of_find hglobal
      have hget : (table objs).get? r.name = some (.int p) := hlink.get?_table hmem
      rw [hlink.get?_localKey hdot hno, hget]
      exact ⟨hlt hmem, rfl⟩

/-- **The global labels are exported, and nothing else.** -/
theorem Linkable.get?_symbolsGlobal (symb : Str) (v : ℤ) :
    (symbolsGlobal (table objs)).get? symb = some v ↔
      ∃ p : ℕ, (.ofAll symb, p) ∈ labelsOf objs ∧ v = p := by
  rw [Dict.get?_eq_some_iff]
  constructor
  · intro h
    obtain ⟨⟨k, w⟩, hmem, hentry⟩ := List.mem_filterMap.mp h
    cases w with
    | int n =>
      rw [globalEntry] at hentry
      split_ifs at hentry with hdot
      cases hentry
      have hget := Dict.get?_eq_some_iff.mpr hmem
      rcases exists_label hget with ⟨-, hv⟩ | ⟨⟨l, p⟩, he, hkey⟩
      · cases hv
      · cases l with
        | ofFile fle symb' => exact absurd (hkey ▸ dot_mem_localKey fle symb') hdot
        | ofAll symb' =>
          cases hkey
          rw [hlink.get?_table he] at hget
          cases hget
          exact ⟨p, he, rfl⟩
    | i32 => cases hentry
    | bytes bs => cases hentry
  · rintro ⟨p, hp, rfl⟩
    have hmem := Dict.get?_eq_some_iff.mp (hlink.get?_table hp)
    refine List.mem_filterMap.mpr ⟨_, hmem, ?_⟩
    exact if_neg (hlink.plain hp).1

end Linkable

/-! ### The result -/

theorem tableOk_initSymbols : TableOk initSymbols where
  i32 := rfl
  int k v hk hv := by
    have hmem := Dict.mem_of_get?_ofList hv
    cases List.mem_singleton.mp hmem
    exact absurd rfl hk

section Linkable

variable {objs : List (Str × Obj)} (hlink : Linkable objs)
  (hdebug : ∀ r : Field, .field r ∈ layout objs → r.name ≠ "__debug__".toList)
include hlink hdebug

/-- The two passes over objects that can be linked. -/
theorem Linkable.passes :
    ∃ res, ldPass 0 (Dict.group (sectionPairs objs)) initSymbols = .ok ⟨table objs, res⟩ ∧
      ldPass 1 (Dict.group (sectionPairs objs)) (table objs) = .ok ⟨table objs, linked objs⟩ := by
  have hsize : ([] : List UInt8).length + size fieldWidth (pieces (items objs)) < 2 ^ 30 := by
    rw [List.length_nil, Nat.zero_add]
    exact hlink.size_lt
  have hok : ∀ x ∈ items objs, ItemOk x.2 := fun x hx => hlink.itemOk hx
  have hfresh : ∀ symb ∈ globals (items objs), symb ∉ initSymbols.keys := by
    intro symb hsymb hmem
    exact (plain_of_mem_globals hok hsymb).2 (List.mem_singleton.mp hmem)
  obtain ⟨res, hfirst⟩ := first_pass (items objs) hok hdebug ⟨initSymbols, []⟩
    tableOk_initSymbols hfresh hlink.global_once hsize
  refine ⟨res, ?_, ?_⟩
  · rw [ldPass_eq]
    exact hfirst
  · rw [ldPass_eq]
    exact second_pass hlink.getitem_i32 (items objs) hok [] (fun e he => hlink.get?_table he)
      (fun r hr => ⟨hdebug r hr, hlink.getitem_table (mem_fields.mpr hr)⟩) hsize

/-- What the linker writes, when it has collected the sections. -/
theorem Linkable.fleLd_eq {readFle : Str → Option Obj} {args : List Str} {dest : Str}
    (hcollect : collect readFle none args Dict.empty none =
      .ok (Dict.group (sectionPairs objs), some dest)) :
    fleLd readFle args = .ok (dest, writeExe ⟨table objs, linked objs⟩) := by
  obtain ⟨res, hfirst, hsecond⟩ := hlink.passes hdebug
  simp only [fleLd, hcollect, hfirst, hsecond, bind, Except.bind, pure, Except.pure]

end Linkable

/-- **Linking and loading.**  For objects that can be linked, the linker succeeds.  Both passes
leave the same table, in which every label has its position; the second produces the image, in
which every field holds the distance to what its name means; the executable exports the global
labels with their positions; and the loader maps the image and jumps to `_start`. -/
theorem fleLd_spec {readFle : Str → Option Obj} {objs₁ objs₂ : List (Str × Obj)}
    (hreads : Reads readFle (objs₁ ++ objs₂)) {dest : Str} (hdest : dest ≠ "-o".toList)
    (hlink : Linkable (objs₁ ++ objs₂))
    (hdebug : ∀ r ∈ fields (layout (objs₁ ++ objs₂)), r.name ≠ "__debug__".toList)
    {args : List Str}
    (hargs : args = objs₁.map Prod.fst ++ "-o".toList :: dest :: objs₂.map Prod.fst) :
    ∃ sections symbols res exe,
      collect readFle none args Dict.empty none = .ok (sections, some dest) ∧
      ldPass 0 sections initSymbols = .ok ⟨symbols, res⟩ ∧
      ldPass 1 sections symbols = .ok ⟨symbols, linked (objs₁ ++ objs₂)⟩ ∧
      (∀ e ∈ labelsOf (objs₁ ++ objs₂), symbols.get? e.1.key = some (.int e.2)) ∧
      fleLd readFle args = .ok (dest, exe) ∧
      (∀ symb v, exe.symbols.get? symb = some v ↔
        ∃ p : ℕ, (.ofAll symb, p) ∈ labelsOf (objs₁ ++ objs₂) ∧ v = p) ∧
      loadBytes exe.load = .ok (linked (objs₁ ++ objs₂)) ∧
      ∀ p : ℕ, (.ofAll "_start".toList, p) ∈ labelsOf (objs₁ ++ objs₂) →
        linked (objs₁ ++ objs₂) ≠ [] → fleExec exe = .ok ⟨linked (objs₁ ++ objs₂), p⟩ := by
  generalize hobjs : objs₁ ++ objs₂ = objs at hlink hdebug ⊢
  have hcollect := collect_spec hreads hdest
  rw [hobjs, ← hargs] at hcollect
  obtain ⟨res, hfirst, hsecond⟩ := hlink.passes fun r hr => hdebug r (mem_fields.mpr hr)
  have hld := hlink.fleLd_eq (fun r hr => hdebug r (mem_fields.mpr hr)) hcollect
  refine ⟨_, table objs, res, writeExe ⟨table objs, linked objs⟩, hcollect, hfirst, hsecond,
    fun e he => hlink.get?_table he, hld, hlink.get?_symbolsGlobal, loadBytes_writeExe _, ?_⟩
  intro p hp hne
  exact fleExec_writeExe hne ((hlink.get?_symbolsGlobal _ _).mpr ⟨p, hp, rfl⟩)

/-! ### Two files -/

/-- The relocation `i32(symb - 0x4 - 📍)`. -/
def callTarget (symb : Str) : Item :=
  .reloc (.call (.name "i32".toList) (.sub (.sub (.name symb) (.const 4)) .current))

/-- A file whose code calls the function `f` of the next file. -/
def mainObj : Obj where
  type := ".obj".toList
  entries := Dict.ofList [(".text".toList,
    [.globalLabel "_start".toList, .bytes "e8".toList, callTarget "f".toList])]

/-- A file with a function that refers to its own data, which it calls `d`. -/
def libObj : Obj where
  type := ".obj".toList
  entries := Dict.ofList [(".text".toList,
      [.globalLabel "f".toList, .bytes "48 8b 05".toList, callTarget "d".toList]),
    (".data".toList, [.localLabel "d".toList, .bytes "2a".toList])]

/-- The two files. -/
def twoObjs : List (Str × Obj) := [("main.fle".toList, mainObj), ("lib.fle".toList, libObj)]

/-- The files as they are read. -/
def readTwo (fle : Str) : Option Obj := Dict.find fle twoObjs

theorem twoObjs_linkable : Linkable twoObjs where
  items_ok := by decide +kernel
  global_once := by decide +kernel
  local_one := by decide +kernel
  resolved := by decide +kernel
  size_lt := by decide +kernel

theorem readTwo_reads : Reads readTwo twoObjs := by
  intro f hf
  rcases List.mem_pair.mp hf with rfl | rfl
  · exact ⟨by decide, rfl, rfl⟩
  · exact ⟨by decide, rfl, rfl⟩

theorem fleLd_spec_twoObjs :
    ∃ exe, fleLd readTwo ["main.fle".toList, "-o".toList, "a.out".toList, "lib.fle".toList] =
        .ok ("a.out".toList, exe) ∧
      fleExec exe = .ok ⟨[0xe8, 0, 0, 0, 0, 0x48, 0x8b, 0x05, 0, 0, 0, 0, 0x2a], 0⟩ := by
  have himage : linked twoObjs = [0xe8, 0, 0, 0, 0, 0x48, 0x8b, 0x05, 0, 0, 0, 0, 0x2a] := by
    decide +kernel
  obtain ⟨_, _, _, exe, -, -, -, -, hld, -, -, hexec⟩ :=
    @fleLd_spec readTwo [("main.fle".toList, mainObj)] [("lib.fle".toList, libObj)] readTwo_reads
      "a.out".toList (by decide) twoObjs_linkable (by decide +kernel) _ rfl
  refine ⟨exe, hld, ?_⟩
  rw [← himage]
  refine hexec 0 (by decide +kernel) ?_
  show linked twoObjs ≠ []
  rw [himage]
  exact List.cons_ne_nil _ _

/-- A file that calls a function named like a constant of Python. -/
def debugObjs : List (Str × Obj) :=
  [("main.fle".toList,
    { type := ".obj".toList
      entries := Dict.ofList [(".text".toList,
        [.bytes "e8".toList, callTarget "__debug__".toList, .globalLabel "__debug__".toList,
          .bytes "c3".toList])] })]

theorem debugObjs_linkable : Linkable debugObjs where
  items_ok := by decide +kernel
  global_once := by decide +kernel
  local_one := by decide +kernel
  resolved := by decide +kernel
  size_lt := by decide +kernel

/-- A relocation for the label `__debug__` does not see the label. -/
theorem fleLd_debug :
    Reads (fun fle => Dict.find fle debugObjs) debugObjs ∧ Linkable debugObjs ∧
      (fleLd (fun fle => Dict.find fle debugObjs)
          ["main.fle".toList, "-o".toList, "a.out".toList]).toOption.map
        (fun r => (loadBytes r.2.load).toOption) =
          some (some [0xe8, 0xfc, 0xff, 0xff, 0xff, 0xc3]) ∧
      linked debugObjs = [0xe8, 0, 0, 0, 0, 0xc3] := by
  refine ⟨?_, debugObjs_linkable, by decide +kernel, by decide +kernel⟩
  intro f hf
  cases List.mem_singleton.mp hf
  exact ⟨by decide, rfl, rfl⟩

end Jyyos.Fle
