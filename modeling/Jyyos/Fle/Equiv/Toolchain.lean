import Jyyos.Fle.Equiv.Cc
import Jyyos.Fle.Equiv.Ld

/-!
# Compiling, linking and loading

The tools put together.  When no relocation table is taken for that of another section, the compiler
driver gives every section its own relocations (`WellFormed.fleCc_eq`), which are those that its
tables show (`WellFormed.entries_eq`).  The items of the compiled objects are those of the placed
sections, one after the other (`items_compiled`), and those of a section lay out as the section.  So
the labels of the linker are the symbols of the program (`symbolTable_perm`), well-formed binaries
can be linked (`WellFormed.linkable`), and each section is where the memory map says
(`toolchain_spec`).
-/

namespace Jyyos.Fle

open Layout PyStr

/-! ### The items of the compiled objects -/

/-- The object of a binary whose sections get their own relocations. -/
def Binary.obj (bin : Binary) : Obj where
  type := ".obj".toList
  entries := Dict.ofList (bin.loaded.map fun sec => (sec.name, elfToFle (bin.elf sec)))

def compiled (bins : List (Str × Binary)) : List (Str × Obj) := bins.map fun f => (f.1, f.2.obj)

/-- The items of a section. -/
def Placed.items (x : Placed) : List (Str × Item) :=
  sectionItems x.fle x.sec.name (elfToFle x.elf)

theorem entries_obj {bin : Binary} (h : (bin.loaded.map Section.name).Nodup) :
    bin.obj.entries.entries =
      bin.loaded.map fun sec => (sec.name, elfToFle (bin.elf sec)) := by
  refine Dict.entries_ofList ?_
  rw [List.map_map]
  exact h

theorem sectionNames_compiled {bins : List (Str × Binary)}
    (h : ∀ f ∈ bins, (f.2.loaded.map Section.name).Nodup) :
    sectionNames (compiled bins) = loadOrder bins := by
  rw [sectionNames, loadOrder, compiled, List.flatMap_map]
  refine congrArg Dict.firsts (List.flatMap_congr fun f hf => ?_)
  have hkeys : f.2.obj.entries.keys = f.2.loaded.map Section.name := by
    rw [Dict.keys, entries_obj (h f hf), List.map_map]
    rfl
  rw [hkeys, List.filter_eq_self]
  intro name hname
  obtain ⟨sec, -, rfl⟩ := List.mem_map.mp hname
  exact sec.dot

theorem items_compiled {bins : List (Str × Binary)}
    (h : ∀ f ∈ bins, (f.2.loaded.map Section.name).Nodup) :
    items (compiled bins) = (placed bins).flatMap Placed.items := by
  rw [items, sectionNames_compiled h, placed, List.flatMap_assoc]
  refine List.flatMap_congr fun name _ => ?_
  rw [compiled, List.flatMap_map, List.flatMap_assoc]
  refine List.flatMap_congr fun f hf => ?_
  have hfind := Dict.filter_eq_find f.2.obj.entries.nodup name
  have hbody : (f.2.obj.entries.get? name).toList.flatMap (sectionItems f.1 name) =
      (f.2.obj.entries.entries.filter fun e => e.1 = name).flatMap
        fun e => sectionItems f.1 name e.2 := by
    rw [hfind, List.flatMap_map]
    rfl
  rw [hbody, entries_obj (h f hf), List.filter_map, List.flatMap_map, List.flatMap_map]
  refine List.flatMap_congr fun sec hsec => ?_
  obtain rfl : sec.name = name := of_decide_eq_true (List.mem_filter.mp hsec).2
  rfl

/-! ### The items of a section -/

/-- The pieces of a section, with its relocations as expressions. -/
def Placed.exprPieces (x : Placed) : List (Piece Label Expr) :=
  (elfToFle x.elf).filterMap (pieceOf x.fle)

/-- The field for a relocation of a file. -/
def Expr.field (fle : Str) (expr : Expr) : Field :=
  ⟨fle, (expr.target.getD ([], 0)).1, (expr.target.getD ([], 0)).2⟩

/-- The pieces of a section. -/
def Placed.pieces (x : Placed) : List (Piece Label Field) := Fle.pieces x.items

namespace Spliced

variable {x : Placed} (hx : Spliced x.fle x.elf)
include hx

theorem exists_relocation {expr : Expr} (h : .reloc expr ∈ elfToFle x.elf) :
    ∃ e ∈ x.relocations.entries, e.2 = expr := by
  have hpiece : .field expr ∈ x.exprPieces := List.mem_filterMap.mpr ⟨_, h, rfl⟩
  obtain ⟨o, ho⟩ := exists_mem_fieldsAt hpiece fieldWidth 0
  obtain ⟨e, he, heq⟩ := List.mem_map.mp (hx.fields_perm.mem_iff.mp ho)
  exact ⟨e, he, congrArg Prod.fst heq⟩

theorem exists_symbol {item : Item} {l : Label} (h : item ∈ elfToFle x.elf)
    (hl : pieceOf x.fle item = some (.label l)) (p : ℕ) : ∃ o, (l, o) ∈ x.symbols p := by
  obtain ⟨o, ho⟩ := exists_mem_labels (List.mem_filterMap.mpr ⟨_, h, hl⟩) fieldWidth 0
  exact ⟨p + o, List.mem_cons_of_mem _
    (List.mem_map.mpr ⟨_, hx.labels_perm.mem_iff.mp ho, rfl⟩)⟩

variable (htarget : ∀ e ∈ x.relocations.entries, e.2.target.isSome)
include htarget

theorem pieces_eq : x.pieces = .label (.ofFile x.fle (sectionLabel x.sec.name)) ::
    x.exprPieces.map (Piece.mapField (Expr.field x.fle)) := by
  have hbody : (elfToFle x.elf).filterMap (toPiece x.fle) =
      x.exprPieces.map (Piece.mapField (Expr.field x.fle)) := by
    rw [Placed.exprPieces, List.map_filterMap]
    refine List.filterMap_congr fun item hitem => ?_
    cases item with
    | globalLabel symb => rfl
    | localLabel symb => rfl
    | bytes xs =>
      rw [toPiece, pieceOf]
      cases PyStr.fromhex xs <;> rfl
    | reloc expr =>
      obtain ⟨e, he, rfl⟩ := hx.exists_relocation hitem
      obtain ⟨t, ht⟩ := Option.isSome_iff_exists.mp (htarget e he)
      rw [toPiece, pieceOf, Option.map_some, Piece.mapField, Expr.field, ht]
      rfl
    | other => rfl
  rw [← hbody, Placed.pieces, Placed.items, sectionItems, Fle.pieces, List.filterMap_cons,
    List.filterMap_map]
  rfl

theorem size_pieces : size fieldWidth x.pieces = x.length := by
  rw [hx.pieces_eq htarget, size_cons, size_mapField, Piece.size, Nat.zero_add]
  exact hx.size_eq

theorem labels_pieces (p : ℕ) : (labels fieldWidth p x.pieces).Perm (x.symbols p) := by
  rw [hx.pieces_eq htarget, labels, labels_mapField, Placed.symbols]
  refine List.Perm.cons _ ?_
  have hadd := labels_add fieldWidth p 0 x.exprPieces
  rw [Nat.add_zero] at hadd
  rw [hadd]
  exact hx.labels_perm.map _

theorem fieldsAt_pieces (p : ℕ) : (fieldsAt fieldWidth p x.pieces).Perm
    (x.relocations.entries.map fun e => (e.2.field x.fle, p + e.1)) := by
  rw [hx.pieces_eq htarget, fieldsAt, fieldsAt_mapField]
  have hadd := fieldsAt_add fieldWidth p 0 x.exprPieces
  rw [Nat.add_zero] at hadd
  rw [hadd, List.map_map]
  have hperm := hx.fields_perm.map fun e => (e.1.field x.fle, p + e.2)
  rw [List.map_map] at hperm
  exact hperm

theorem image_pieces {enc : ℕ → Field → List UInt8} (henc : ∀ p r, (enc p r).length = fieldWidth)
    (p : ℕ) {i : ℕ} (hi : i < x.length) (hout : x.elf.Outside i) :
    (image enc fieldWidth p x.pieces)[i]? = x.sec.data[i]? := by
  rw [hx.pieces_eq htarget, image, image_mapField]
  have hadd := image_add (fun o r => enc o (Expr.field x.fle r)) fieldWidth p 0 x.exprPieces
  rw [Nat.add_zero] at hadd
  rw [hadd]
  exact hx.bytes_eq _ (fun q r => henc (p + q) (Expr.field x.fle r)) i hi hout

end Spliced

/-! ### The program -/

section WellFormed

variable {bins : List (Str × Binary)}

theorem mem_placed {f : Str × Binary} (hf : f ∈ bins) {sec : Section} (hsec : sec ∈ f.2.loaded) :
    ⟨f.1, f.2, sec⟩ ∈ placed bins := by
  have hname : sec.name ∈ loadOrder bins := Dict.mem_firsts.mpr
    (List.mem_flatMap.mpr ⟨f, hf, List.mem_map_of_mem hsec⟩)
  refine List.mem_flatMap.mpr ⟨sec.name, hname, List.mem_flatMap.mpr ⟨f, hf, ?_⟩⟩
  exact List.mem_map.mpr ⟨sec, List.mem_filter.mpr ⟨hsec, decide_eq_true rfl⟩, rfl⟩

variable (hwf : WellFormed bins)
include hwf

/-- The relocations that are read for a section are those that its tables show. -/
theorem WellFormed.entries_eq {x : Placed} (hx : x ∈ placed bins) {rs : List Rela}
    (h : Shown x.lines rs) : (∃ relocations, x.bin.ownRelocations x.sec = .ok relocations) ∧
      x.relocations.entries.map (fun e => (e.1, e.2.target)) =
        rs.map fun r => (r.offset, some (r.name, r.addend)) := by
  obtain ⟨rs', h', hfits, -⟩ := hwf.relas x hx
  obtain rfl := h.unique h'
  obtain ⟨relocations, hown, hall⟩ := Binary.ownRelocations_shown h hfits.once
  have hread : x.relocations = relocations := by
    rw [Placed.relocations, Placed.elf, Binary.elf, hown]
    rfl
  refine ⟨⟨relocations, hown⟩, ?_⟩
  rw [hread, ← List.forall₂_eq_eq_eq, List.forall₂_map_left_iff, List.forall₂_map_right_iff]
  exact hall.imp fun _ _ h => Prod.ext h.1 h.2

theorem WellFormed.keys_eq {x : Placed} (hx : x ∈ placed bins) {rs : List Rela}
    (h : Shown x.lines rs) : x.elf.relocations.keys = rs.map Rela.offset := by
  have hkeys := congrArg (List.map Prod.fst) (hwf.entries_eq hx h).2
  rw [List.map_map, List.map_map] at hkeys
  exact hkeys

theorem WellFormed.spliced {x : Placed} (hx : x ∈ placed bins) : Spliced x.fle x.elf := by
  obtain ⟨rs, hshown, hfits, -⟩ := hwf.relas x hx
  have hkeys := hwf.keys_eq hx hshown
  refine Elf.Spliceable.spliced ⟨?_, ?_, ?_⟩ x.fle
  · rw [hkeys, List.forall_mem_map]
    exact fun r hr => List.forall_mem_map.mpr (hfits.gap r hr)
  · rw [hkeys, List.forall_mem_map]
    exact hfits.inside
  · intro sym hsym hsec
    rw [hkeys, List.forall_mem_map]
    exact hfits.symbols sym hsym hsec

/-- Every relocation is for a name that means something. -/
theorem WellFormed.relocations {x : Placed} (hx : x ∈ placed bins) :
    ∀ e ∈ x.relocations.entries, ∃ t ∈ e.2.target, Plain t.1 ∧ -2 ^ 30 < t.2 ∧ t.2 < 2 ^ 30 ∧
      t.1 ≠ "__debug__".toList ∧ ∃ a, Means bins x.fle t.1 a := by
  obtain ⟨rs, hshown, -, hrs⟩ := hwf.relas x hx
  intro e he
  have hmem := List.mem_map_of_mem (f := fun e : ℕ × Expr => (e.1, e.2.target)) he
  rw [(hwf.entries_eq hx hshown).2] at hmem
  obtain ⟨r, hr, heq⟩ := List.mem_map.mp hmem
  exact ⟨(r.name, r.addend), (Prod.mk.inj heq).2.symm, hrs r hr⟩

theorem WellFormed.target {x : Placed} (hx : x ∈ placed bins) :
    ∀ e ∈ x.relocations.entries, e.2.target.isSome := by
  intro e he
  obtain ⟨t, ht, -⟩ := hwf.relocations hx e he
  exact Option.isSome_iff_exists.mpr ⟨t, ht⟩

theorem WellFormed.layout_eq :
    layout (compiled bins) = (placed bins).flatMap Placed.pieces := by
  rw [layout, items_compiled hwf.names_nodup, List.filterMap_flatMap]
  rfl

theorem WellFormed.size_pieces : ∀ x ∈ placed bins, size fieldWidth x.pieces = x.length :=
  fun _ hx => (hwf.spliced hx).size_pieces (hwf.target hx)

/-- **The labels of the linker are the symbols of the program.** -/
theorem WellFormed.symbolTable_perm : (labelsOf (compiled bins)).Perm (symbolTable bins) := by
  rw [labelsOf, hwf.layout_eq, labels_flatMap hwf.size_pieces]
  refine List.Perm.flatMap_left _ fun b hb => ?_
  have hx := fst_mem_of_mem_starts hb
  exact (hwf.spliced hx).labels_pieces (hwf.target hx) b.2

/-- The fields of the linker are the relocations of the program. -/
theorem WellFormed.exists_relocation {r : Field} (hr : r ∈ fields (layout (compiled bins))) :
    ∃ x ∈ placed bins, ∃ e ∈ x.relocations.entries, ∃ t ∈ e.2.target,
      r = ⟨x.fle, t.1, t.2⟩ := by
  obtain ⟨o, ho⟩ := exists_mem_fieldsAt (mem_fields.mp hr) fieldWidth 0
  rw [hwf.layout_eq, fieldsAt_flatMap hwf.size_pieces] at ho
  obtain ⟨b, hb, ho⟩ := List.mem_flatMap.mp ho
  have hx := fst_mem_of_mem_starts hb
  have hperm := (hwf.spliced hx).fieldsAt_pieces (hwf.target hx) b.2
  obtain ⟨e, he, heq⟩ := List.mem_map.mp (hperm.mem_iff.mp ho)
  obtain ⟨t, ht⟩ := Option.isSome_iff_exists.mp (hwf.target hx e he)
  obtain ⟨rfl, -⟩ := Prod.mk.inj heq
  refine ⟨b.1, hx, e, he, t, ht, ?_⟩
  rw [Expr.field, ht]
  rfl

theorem WellFormed.itemOk {x : Placed} (hx : x ∈ placed bins) {item : Item}
    (hitem : item ∈ elfToFle x.elf) : ItemOk item := by
  obtain ⟨p, hp⟩ := @exists_mem_starts Placed Placed.length _ _ hx 0
  have hlabel : ∀ l : Label, pieceOf x.fle item = some (.label l) → Plain l.name := by
    intro l hl
    obtain ⟨o, ho⟩ := (hwf.spliced hx).exists_symbol hitem hl p
    exact hwf.symbols_plain _ (List.mem_flatMap.mpr ⟨_, hp, ho⟩)
  cases item with
  | globalLabel symb => exact hlabel (.ofAll symb) rfl
  | localLabel symb => exact hlabel (.ofFile x.fle symb) rfl
  | bytes xs =>
    have hknown := (hwf.spliced hx).known _ hitem
    rw [pieceOf, Option.isSome_map] at hknown
    exact hknown
  | reloc expr =>
    obtain ⟨e, he, rfl⟩ := (hwf.spliced hx).exists_relocation hitem
    obtain ⟨t, ht, hplain, hlo, hhi, -⟩ := hwf.relocations hx e he
    exact ⟨t, ht, hplain, hlo, hhi⟩
  | other => trivial

/-- **Well-formed binaries can be linked.** -/
theorem WellFormed.linkable : Linkable (compiled bins) where
  items_ok := by
    intro obj hobj e he _ item hitem
    obtain ⟨f, hf, rfl⟩ := List.mem_map.mp hobj
    have he : e ∈ f.2.obj.entries.entries := he
    rw [entries_obj (hwf.names_nodup f hf)] at he
    obtain ⟨sec, hsec, rfl⟩ := List.mem_map.mp he
    exact hwf.itemOk (mem_placed hf hsec) hitem
  global_once := by
    have honce := hwf.global_once
    rw [← (hwf.symbolTable_perm.filterMap fun e => e.1.global?).nodup_iff] at honce
    rw [← globals, globals_eq _ 0]
    exact honce
  local_one := by
    intro e he e' he'
    exact hwf.local_one e (hwf.symbolTable_perm.mem_iff.mp he) e'
      (hwf.symbolTable_perm.mem_iff.mp he')
  resolved := by
    intro r hr
    obtain ⟨x, hx, e, he, t, ht, rfl⟩ := hwf.exists_relocation hr
    obtain ⟨t', ht', -, -, -, -, a, ha⟩ := hwf.relocations hx e he
    obtain rfl := Option.some.inj (ht.symm.trans ht')
    obtain ha | ⟨-, ha⟩ := ha
    · exact Or.inl ⟨_, hwf.symbolTable_perm.mem_iff.mpr ha, rfl⟩
    · exact Or.inr ⟨_, hwf.symbolTable_perm.mem_iff.mpr ha, rfl⟩
  size_lt := by
    rw [hwf.layout_eq, size_flatMap hwf.size_pieces]
    exact hwf.size_lt

/-- The linker finds for a name what it means. -/
theorem WellFormed.addr_eq {fle symb : Str} {a : ℕ} (h : Means bins fle symb a) :
    addr (compiled bins) fle symb = a := by
  have hlink := hwf.linkable
  have hmem : ∀ {e}, e ∈ labelsOf (compiled bins) ↔ e ∈ symbolTable bins :=
    hwf.symbolTable_perm.mem_iff
  rw [addr]
  cases hfind : Dict.find (.ofFile fle symb) (labelsOf (compiled bins)) with
  | some p =>
    have hp := Dict.mem_of_find hfind
    obtain ha | ⟨hno, -⟩ := h
    · exact hlink.label_one hp (hmem.mpr ha)
    · exact absurd (hmem.mp hp) (hno p)
  | none =>
    have hnone := Dict.find_eq_none_iff.mp hfind
    obtain ha | ⟨-, ha⟩ := h
    · exact absurd (List.mem_map_of_mem (hmem.mpr ha)) hnone
    · cases hall : Dict.find (.ofAll symb) (labelsOf (compiled bins)) with
      | some p => exact hlink.label_one (Dict.mem_of_find hall) (hmem.mpr ha)
      | none =>
        exact absurd (List.mem_map_of_mem (hmem.mpr ha)) (Dict.find_eq_none_iff.mp hall)

/-- **The compiler driver writes the objects.** -/
theorem WellFormed.fleCc_eq {f : Str × Binary} (hf : f ∈ bins) : fleCc f.2 = .ok f.2.obj := by
  have hentry : ∀ sec ∈ f.2.loaded,
      (f.2.relocations sec).map (fun relocations =>
        (sec.name, elfToFle ⟨sec.name, sec.data, f.2.symbols, relocations⟩)) =
      .ok (sec.name, elfToFle (f.2.elf sec)) := by
    intro sec hsec
    have hx := mem_placed hf hsec
    obtain ⟨rs, hshown, -⟩ := hwf.relas _ hx
    obtain ⟨⟨relocations, hown⟩, -⟩ := hwf.entries_eq hx hshown
    rw [Binary.relocations_eq (hwf.own_tables _ hx), hown, Binary.elf, hown]
    rfl
  have hentries := mapM_ok hentry
  rw [fleCc]
  show (f.2.loaded.mapM fun sec => (f.2.relocations sec).map _) >>= _ = _
  rw [hentries]
  rfl

/-- What the linker writes. -/
theorem WellFormed.fleLd_eq {bins₁ bins₂ : List (Str × Binary)} (hbins : bins = bins₁ ++ bins₂)
    {readFle : Str → Option Obj}
    (hreads : ∀ f ∈ bins, f.1 ≠ "-o".toList ∧ readFle f.1 = (fleCc f.2).toOption) {dest : Str}
    (hdest : dest ≠ "-o".toList) :
    fleLd readFle (bins₁.map Prod.fst ++ "-o".toList :: dest :: bins₂.map Prod.fst) =
      .ok (dest, writeExe ⟨table (compiled bins), linked (compiled bins)⟩) := by
  have hdebug : ∀ r : Field, .field r ∈ layout (compiled bins) → r.name ≠ "__debug__".toList := by
    intro r hr
    obtain ⟨x, hx, e, he, t, ht, rfl⟩ := hwf.exists_relocation (mem_fields.mpr hr)
    obtain ⟨t', ht', -, -, -, hne, -⟩ := hwf.relocations hx e he
    obtain rfl := Option.some.inj (ht.symm.trans ht')
    exact hne
  have hobjs : Reads readFle (compiled bins₁ ++ compiled bins₂) := by
    intro obj hobj
    rw [compiled, compiled, ← List.map_append, ← hbins] at hobj
    obtain ⟨f, hf, rfl⟩ := List.mem_map.mp hobj
    refine ⟨(hreads f hf).1, (hreads f hf).2.trans ?_, rfl⟩
    rw [hwf.fleCc_eq hf]
    rfl
  have hcollect := collect_spec hobjs hdest
  rw [compiled, compiled, List.map_map, List.map_map, ← List.map_append, ← hbins] at hcollect
  exact hwf.linkable.fleLd_eq hdebug hcollect

omit hwf in
theorem length_distance (objs : List (Str × Obj)) (p : ℕ) (r : Field) :
    (littleEndian (addr objs r.fle r.name + r.addend - p)).length = fieldWidth :=
  length_littleEndian _

theorem WellFormed.length_linked :
    (linked (compiled bins)).length = ((placed bins).map Placed.length).sum := by
  rw [linked, length_image (length_distance _), hwf.layout_eq, size_flatMap hwf.size_pieces]

/-- There is something in memory at a global symbol. -/
theorem WellFormed.linked_ne_nil {symb : Str} {p : ℕ} (h : (.ofAll symb, p) ∈ symbolTable bins) :
    linked (compiled bins) ≠ [] := by
  intro hnil
  have hlength := hwf.length_linked
  rw [hnil, List.length_nil] at hlength
  obtain ⟨b, hb, hsymb⟩ := List.mem_flatMap.mp h
  obtain heq | hsymb := List.mem_cons.mp hsymb
  · cases heq
  · obtain ⟨e, he, -⟩ := List.mem_map.mp hsymb
    obtain ⟨sym, hsym, -⟩ := List.mem_map.mp he
    have hlt := (of_decide_eq_true (List.mem_filter.mp hsym).2).2
    have hzero := List.sum_eq_zero_iff_forall_eq_nat.mp hlength.symm b.1.length
      (List.mem_map_of_mem (fst_mem_of_mem_starts hb))
    omega

/-- Where a section stands, and what stands there. -/
theorem WellFormed.image_section {b : Placed × ℕ} (hb : b ∈ memoryMap bins) {rs : List Rela}
    (hshown : Shown b.1.lines rs) :
    (∀ i < b.1.length, (∀ r ∈ rs, ¬(r.offset ≤ i ∧ i < r.offset + fieldWidth)) →
      (linked (compiled bins))[b.2 + i]? = b.1.sec.data[i]?) ∧
    ∀ r ∈ rs, ∀ a, Means bins b.1.fle r.name a →
      ((linked (compiled bins)).drop (b.2 + r.offset)).take fieldWidth =
        littleEndian (a + r.addend - (b.2 + r.offset : ℕ)) := by
  have hx := fst_mem_of_mem_starts hb
  have hspliced := hwf.spliced hx
  have henc := length_distance (compiled bins)
  constructor
  · intro i hi hout
    have hout' : b.1.elf.Outside i := by
      unfold Elf.Outside
      rw [hwf.keys_eq hx hshown, List.forall_mem_map]
      exact hout
    obtain ⟨q, hq, himage⟩ := take_drop_image_flatMap henc hwf.size_pieces hb
    rw [← hspliced.image_pieces (hwf.target hx) henc b.2 hi hout', ← himage, linked, hwf.layout_eq,
      List.getElem?_take_of_lt hi, List.getElem?_drop, hq, Nat.zero_add]
  · intro r hr a ha
    obtain ⟨e, he, heq⟩ : ∃ e ∈ b.1.relocations.entries,
        (e.1, e.2.target) = (r.offset, some (r.name, r.addend)) := by
      rw [← List.mem_map, (hwf.entries_eq hx hshown).2]
      exact List.mem_map_of_mem hr
    obtain ⟨hoffset, ht⟩ := Prod.mk.inj heq
    have hperm := hspliced.fieldsAt_pieces (hwf.target hx) b.2
    have hfield : (e.2.field b.1.fle, b.2 + e.1) ∈
        fieldsAt fieldWidth 0 (layout (compiled bins)) := by
      rw [hwf.layout_eq, fieldsAt_flatMap hwf.size_pieces]
      exact List.mem_flatMap.mpr ⟨b, hb, hperm.mem_iff.mpr (List.mem_map_of_mem he)⟩
    obtain ⟨q, hq, himage⟩ := take_drop_image henc hfield
    rw [Nat.zero_add] at hq
    subst hq
    have htarget : e.2.field b.1.fle = ⟨b.1.fle, r.name, r.addend⟩ := by
      rw [Expr.field, ht]
      rfl
    rw [← hoffset, linked, himage, htarget, hwf.addr_eq ha]

end WellFormed

/-- **Compiling, linking and loading.**  For well-formed binaries of which one has a global symbol
`_start`, the linker succeeds on the compiled objects, and the loader starts the program at `_start`
with every section at its address in memory: the bytes outside the relocation fields are those that
the compiler has written, and each field holds the distance to what its name means. -/
theorem toolchain_spec {bins₁ bins₂ : List (Str × Binary)} (hwf : WellFormed (bins₁ ++ bins₂))
    {readFle : Str → Option Obj}
    (hreads : ∀ f ∈ bins₁ ++ bins₂, f.1 ≠ "-o".toList ∧ readFle f.1 = (fleCc f.2).toOption)
    {dest : Str} (hdest : dest ≠ "-o".toList) {entry : ℕ}
    (hentry : (.ofAll "_start".toList, entry) ∈ symbolTable (bins₁ ++ bins₂)) :
    ∃ exe mem, fleLd readFle
        (bins₁.map Prod.fst ++ "-o".toList :: dest :: bins₂.map Prod.fst) = .ok (dest, exe) ∧
      fleExec exe = .ok ⟨mem, entry⟩ ∧
      mem.length = ((placed (bins₁ ++ bins₂)).map Placed.length).sum ∧
      ∀ b ∈ memoryMap (bins₁ ++ bins₂), ∀ rs, Shown b.1.lines rs →
        (∀ i < b.1.length, (∀ r ∈ rs, ¬(r.offset ≤ i ∧ i < r.offset + fieldWidth)) →
          mem[b.2 + i]? = b.1.sec.data[i]?) ∧
        ∀ r ∈ rs, ∀ a, Means (bins₁ ++ bins₂) b.1.fle r.name a →
          (mem.drop (b.2 + r.offset)).take fieldWidth =
            littleEndian (a + r.addend - (b.2 + r.offset : ℕ)) := by
  have hlink := hwf.linkable
  have hmem := hwf.symbolTable_perm.mem_iff.mpr hentry
  refine ⟨_, linked (compiled (bins₁ ++ bins₂)), hwf.fleLd_eq rfl hreads hdest, ?_,
    hwf.length_linked, fun b hb rs hshown => hwf.image_section hb hshown⟩
  exact fleExec_writeExe (hwf.linked_ne_nil hentry)
    ((hlink.get?_symbolsGlobal _ _).mpr ⟨entry, hmem, rfl⟩)

/-! ### Two binaries -/

/-- The code of a section. -/
def codeSection (data : List UInt8) : Section where
  name := ".text".toList
  dot := rfl
  flags := ["CONTENTS".toList, "ALLOC".toList, "LOAD".toList]
  data := data

/-- The table for the call of `f`, as it is printed. -/
def callTable : RelaTable where
  head := ⟨".text".toList, "168".toList, "1 entry".toList⟩
  lines :=
    ["  Offset          Info           Type           Sym. Value    Sym. Name + Addend".toList,
      "000000000001  000500000004 R_X86_64_PLT32    0000000000000000 f - 4".toList, []]
  plain := by decide +kernel

/-- A call of `f`, which the other file defines. -/
def mainBin : Binary where
  sections := [codeSection [0xe8, 0, 0, 0, 0]]
  symbols := [⟨.g, ".text".toList, 0, "_start".toList⟩]
  tables := [callTable]

def libBin : Binary where
  sections := [codeSection [0x90, 0xc3]]
  symbols := [⟨.g, ".text".toList, 1, "f".toList⟩]
  tables := []

def twoBins : List (Str × Binary) := [("main.fle".toList, mainBin), ("lib.fle".toList, libBin)]

def mainCode : Placed := ⟨"main.fle".toList, mainBin, codeSection [0xe8, 0, 0, 0, 0]⟩

def libCode : Placed := ⟨"lib.fle".toList, libBin, codeSection [0x90, 0xc3]⟩

theorem placed_twoBins : placed twoBins = [mainCode, libCode] := by decide +kernel

theorem forall_placed {P : Placed → Prop} (hmain : P mainCode) (hlib : P libCode) :
    ∀ x ∈ placed twoBins, P x := by
  rw [placed_twoBins]
  intro x hx
  obtain rfl | rfl := List.mem_pair.mp hx
  · exact hmain
  · exact hlib

/-- The columns of the entry of `callTable`. -/
def callEntry : RelaEntry :=
  ⟨"000000000001".toList, "000500000004".toList, "R_X86_64_PLT32".toList,
    "0000000000000000".toList, "f - 4".toList⟩

/-- The field of the call. -/
def callRela : Rela := ⟨1, "f".toList, -4⟩

theorem callEntry_shows : callEntry.Shows callRela where
  printed := by
    have hkind : callEntry.kind.all (fun c => !isSpace c) = true := by decide
    exact
      { offset := ⟨by decide, List.all_eq_true.mp (by decide)⟩
        info := ⟨by decide, List.all_eq_true.mp (by decide)⟩
        kind := ⟨by decide, fun c hc =>
          (Bool.not_eq_true' _).mp (List.all_eq_true.mp hkind c hc)⟩
        value := ⟨by decide, List.all_eq_true.mp (by decide)⟩
        expr := by
          rintro c ⟨rfl⟩
          decide }
  kind := by decide
  offset := rfl
  name := by decide
  expr := ⟨"f".toList, '-', ['4'], 4, rfl, rfl, rfl, Or.inr ⟨rfl, rfl⟩⟩

theorem shown_mainCode : Shown mainCode.lines [callRela] := by
  have hlines : mainCode.lines =
      ["  Offset          Info           Type           Sym. Value    Sym. Name + Addend".toList,
        callEntry.line 3, []] := by decide +kernel
  rw [hlines]
  refine .other ?_ (.entry callEntry_shows 3 (.other ?_ .nil))
  · rintro c ⟨rfl⟩
    decide
  · rintro c ⟨⟩

theorem shown_libCode : Shown libCode.lines [] := .nil

theorem means_twoBins (fle : Str) : Means twoBins fle "f".toList 6 := by
  have hlocal : ∀ e ∈ symbolTable twoBins, e.1.global? = none → e.1.name ≠ "f".toList := by
    decide +kernel
  exact Or.inr ⟨fun p hp => hlocal _ hp rfl rfl, by decide +kernel⟩

theorem fits_mainCode : mainCode.Fits [callRela] where
  once := by decide
  gap := by decide
  inside := by decide
  symbols := by decide

theorem fits_libCode : libCode.Fits [] where
  once := .nil
  gap := List.forall_mem_nil _
  inside := List.forall_mem_nil _
  symbols := fun _ _ _ => List.forall_mem_nil _

theorem twoBins_wellFormed : WellFormed twoBins where
  names_nodup := by decide +kernel
  own_tables := by decide +kernel
  relas := by
    refine forall_placed ⟨_, shown_mainCode, fits_mainCode, ?_⟩
      ⟨_, shown_libCode, fits_libCode, List.forall_mem_nil _⟩
    intro r hr
    obtain rfl := List.mem_singleton.mp hr
    exact ⟨by decide, by decide, by decide, by decide, 6, means_twoBins _⟩
  symbols_plain := by decide +kernel
  global_once := by decide +kernel
  local_one := by decide +kernel
  size_lt := by decide +kernel

/-- The objects of the two binaries as they are read. -/
def readBins (fle : Str) : Option Obj :=
  (Dict.find fle twoBins).bind fun bin => (fleCc bin).toOption

theorem readBins_eq : ∀ f ∈ twoBins, f.1 ≠ "-o".toList ∧ readBins f.1 = (fleCc f.2).toOption := by
  intro f hf
  have hfind : Dict.find f.1 twoBins = some f.2 := by
    rcases List.mem_pair.mp hf with rfl | rfl <;> rfl
  refine ⟨?_, ?_⟩
  · rcases List.mem_pair.mp hf with rfl | rfl <;> decide
  · rw [readBins, hfind, Option.bind_some]

/-- The field of the call holds `6 - 4 - 1`. -/
theorem toolchain_spec_twoBins :
    ∃ exe mem, fleLd readBins
        ["main.fle".toList, "-o".toList, "a.out".toList, "lib.fle".toList] =
          .ok ("a.out".toList, exe) ∧
      fleExec exe = .ok ⟨mem, 0⟩ ∧ mem.length = 7 ∧ mem[0]? = some 0xe8 ∧
      (mem.drop 1).take fieldWidth = [1, 0, 0, 0] ∧ mem[6]? = some 0xc3 := by
  obtain ⟨exe, mem, hld, hexec, hlength, hsections⟩ :=
    @toolchain_spec [("main.fle".toList, mainBin)] [("lib.fle".toList, libBin)] twoBins_wellFormed
      readBins readBins_eq "a.out".toList (by decide) 0 (by decide +kernel)
  have hmap : memoryMap twoBins = [(mainCode, 0), (libCode, 5)] := by
    rw [memoryMap, placed_twoBins]
    rfl
  obtain ⟨hmain, hfields⟩ := hsections (mainCode, 0) (hmap ▸ List.mem_cons_self) _ shown_mainCode
  obtain ⟨hlib, -⟩ := hsections (libCode, 5) (hmap ▸ List.mem_cons_of_mem _ List.mem_cons_self) _
    shown_libCode
  have hvalue : littleEndian ((6 : ℕ) + -4 - (0 + 1 : ℕ)) = [1, 0, 0, 0] := by decide
  refine ⟨exe, mem, hld, hexec, ?_, hmain 0 (by decide) (by decide), ?_,
    hlib 1 (by decide) (List.forall_mem_nil _)⟩
  · rw [hlength]
    show ((placed twoBins).map Placed.length).sum = 7
    rw [placed_twoBins]
    rfl
  · rw [← hvalue]
    exact hfields callRela List.mem_cons_self 6 (means_twoBins _)

end Jyyos.Fle
