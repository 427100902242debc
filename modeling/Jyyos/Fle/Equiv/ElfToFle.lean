import Jyyos.Fle.ElfToFle
import Jyyos.Fle.Equiv.Exec
import Jyyos.Fle.Layout
import Mathlib.Data.List.Perm.Basic

/-!
# The items of a section lay out as the section

`elfToFle_spec`: when the items that `elf_to_fle` writes are laid out as the linker does it, they
take the room of the section; the labels are the symbols of the section, each at its offset; the
relocations are those of the section, each at its offset; and the bytes outside the relocation
fields are where they were.

The bytes that are held back count as a piece that is still to be written (`Emit.pieces`), so
writing them changes nothing (`pieces_dump`), and the chunks of sixteen play no part in the
argument.  The invariant of the loop (`Laid`) is that the pieces written before the byte `i` take
`i + skip` bytes.  `skip` is positive only strictly inside a field (`Skipping`), where neither a
symbol nor a relocation stands, so labels and fields are put down at position `i`.
-/

namespace Jyyos.Fle

open Layout PyStr

/-- The piece that an item of the file `fle` is in a layout; a relocation stays an expression. -/
def pieceOf (fle : Str) : Item → Option (Piece Label Expr)
  | .globalLabel symb => some (.label (.ofAll symb))
  | .localLabel symb => some (.label (.ofFile fle symb))
  | .bytes xs => (fromhex xs).map .data
  | .reloc expr => some (.field expr)
  | .other => none

/-! ### Bytes in hexadecimal -/

theorem fromhex_hex2 (b : UInt8) (s : Str) :
    fromhex (hex2 b ++ s) = (fromhex s).map (b :: ·) := by
  have hb : b.toNat < 256 := b.toNat_lt
  have hspace := isSpace_hexDigit (b.toNat / 16) (by omega)
  have hhigh := hexValue_hexDigit (b.toNat / 16) (by omega)
  have hlow := hexValue_hexDigit (b.toNat % 16) (by omega)
  have hsum : 16 * (b.toNat / 16) + b.toNat % 16 = b.toNat := Nat.div_add_mod _ _
  simp only [hex2, List.cons_append, List.nil_append, fromhex, hspace, Bool.false_eq_true,
    ↓reduceIte, hhigh, hlow]
  cases fromhex s with
  | none => rfl
  | some bs =>
    show some (UInt8.ofNat (16 * (b.toNat / 16) + b.toNat % 16) :: bs) = some (b :: bs)
    rw [hsum, UInt8.ofNat_toNat]

/-- Bytes written in hexadecimal are read back. -/
theorem fromhex_join (bs : List UInt8) : fromhex (join ' ' (bs.map hex2)) = some bs := by
  induction bs with
  | nil => rfl
  | cons b bs ih =>
    cases bs with
    | nil =>
      have h := fromhex_hex2 b []
      rw [List.append_nil] at h
      exact h
    | cons c bs =>
      have hblank : fromhex (' ' :: join ' ' ((c :: bs).map hex2)) =
          fromhex (join ' ' ((c :: bs).map hex2)) := by
        rw [fromhex.eq_def]
        rfl
      show fromhex (hex2 b ++ ' ' :: join ' ' ((c :: bs).map hex2)) = some (b :: c :: bs)
      rw [fromhex_hex2, hblank, ih]
      rfl

/-! ### The pieces written so far -/

namespace Emit

variable {fle : Str} {s : Emit}

/-- The pieces written, with the bytes held as the last. -/
def pieces (fle : Str) (s : Emit) : List (Piece Label Expr) :=
  s.res.filterMap (pieceOf fle) ++ if s.holding = [] then [] else [.data s.holding]

theorem holding_dump (s : Emit) : s.dump.holding = [] := by
  rw [dump]
  split_ifs with h
  · exact h
  · rfl

theorem skip_dump (s : Emit) : s.dump.skip = s.skip := by
  rw [dump]
  split_ifs <;> rfl

/-- Writing the bytes held leaves the pieces as they are. -/
theorem pieces_dump (fle : Str) (s : Emit) : s.dump.pieces fle = s.pieces fle := by
  by_cases h : s.holding = []
  · rw [dump, if_pos h]
  · simp [dump, pieces, h, List.filterMap_append, pieceOf, fromhex_join]

/-- Writing an item behind the bytes held. -/
theorem pieces_item {item : Item} {piece : Piece Label Expr}
    (h : pieceOf fle item = some piece) (skip : ℕ) :
    ({ s.dump with res := s.dump.res ++ [item], skip := skip } : Emit).pieces fle =
      s.pieces fle ++ [piece] := by
  rw [← pieces_dump fle s]
  simp [pieces, holding_dump s, h]

/-- The state with one more byte held. -/
def hold (s : Emit) (b : UInt8) : Emit := { s with holding := s.holding ++ [b] }

section Hold

variable (fle : Str) (s : Emit) (b : UInt8)

theorem pieces_hold : (s.hold b).pieces fle =
    s.res.filterMap (pieceOf fle) ++ [.data (s.holding ++ [b])] := by
  simp [hold, pieces]

theorem size_hold : size fieldWidth ((s.hold b).pieces fle) =
    size fieldWidth (s.pieces fle) + 1 := by
  rw [pieces_hold, pieces]
  split_ifs with h <;> simp [size_append, Piece.size, h, Nat.add_assoc]

theorem labels_hold : Layout.labels fieldWidth 0 ((s.hold b).pieces fle) =
    Layout.labels fieldWidth 0 (s.pieces fle) := by
  rw [pieces_hold, pieces]
  split_ifs with h <;> simp [labels_append, Layout.labels]

theorem fieldsAt_hold : fieldsAt fieldWidth 0 ((s.hold b).pieces fle) =
    fieldsAt fieldWidth 0 (s.pieces fle) := by
  rw [pieces_hold, pieces]
  split_ifs with h <;> simp [fieldsAt_append, fieldsAt]

theorem image_hold (enc : ℕ → Expr → List UInt8) :
    image enc fieldWidth 0 ((s.hold b).pieces fle) =
      image enc fieldWidth 0 (s.pieces fle) ++ [b] := by
  rw [pieces_hold, pieces]
  split_ifs with h <;> simp [image_append, image, h]

end Hold

theorem skip_label (s : Emit) (sym : Symbol) : (s.label sym).skip = s.skip := skip_dump s

/-- Every item is one that the linker knows. -/
def Known (fle : Str) (s : Emit) : Prop := ∀ item ∈ s.res, (pieceOf fle item).isSome

theorem Known.dump (h : s.Known fle) : s.dump.Known fle := by
  unfold Emit.dump
  split_ifs with hh
  · exact h
  · intro item hitem
    rcases List.mem_append.mp hitem with hitem | hitem
    · exact h item hitem
    · rw [List.mem_singleton.mp hitem, pieceOf, fromhex_join]
      rfl

theorem Known.item (h : s.Known fle) {item : Item} {piece : Piece Label Expr}
    (hitem : pieceOf fle item = some piece) (skip : ℕ) :
    ({ s.dump with res := s.dump.res ++ [item], skip := skip } : Emit).Known fle := by
  intro x hx
  rcases List.mem_append.mp hx with hx | hx
  · exact h.dump x hx
  · rw [List.mem_singleton.mp hx, hitem]
    rfl

end Emit

/-! ### The invariant of the loop -/

/-- The label for a symbol. -/
def Symbol.label (fle : Str) (sym : Symbol) : Label :=
  if sym.symbType = .l then .ofFile fle sym.name else .ofAll sym.name

namespace Elf

variable (elf : Elf)

/-- The labels of the section at the offset `i`. -/
def labelsAt (fle : Str) (i : ℕ) : List (Label × ℕ) :=
  (elf.symbols.filter fun sym => sym.sec = elf.sec ∧ sym.offset = i).map fun sym =>
    (sym.label fle, sym.offset)

/-- The relocation at the offset `i`. -/
def relocAt (i : ℕ) : List (Expr × ℕ) := (elf.relocations.get? i).toList.map fun expr => (expr, i)

theorem mem_keys_of_get? {i : ℕ} {expr : Expr} (h : elf.relocations.get? i = some expr) :
    i ∈ elf.relocations.keys :=
  List.mem_map_of_mem (Dict.get?_eq_some_iff.mp h)

/-- The byte `i` belongs to no relocation field. -/
def Outside (i : ℕ) : Prop := ∀ o ∈ elf.relocations.keys, ¬(o ≤ i ∧ i < o + fieldWidth)

/-- Relocation fields do not overlap, lie within the section, and contain no symbol but at their
beginning. -/
structure Spliceable : Prop where
  gap : ∀ o ∈ elf.relocations.keys, ∀ o' ∈ elf.relocations.keys, o < o' → o + fieldWidth ≤ o'
  inside : ∀ o ∈ elf.relocations.keys, o + fieldWidth ≤ elf.sectionData.length
  symbols : ∀ sym ∈ elf.symbols, sym.sec = elf.sec → ∀ o ∈ elf.relocations.keys,
    ¬(o < sym.offset ∧ sym.offset < o + fieldWidth)

/-- At the byte `i`, `skip` bytes of a relocation field are left. -/
def Skipping (i skip : ℕ) : Prop :=
  0 < skip → ∃ o ∈ elf.relocations.keys, o < i ∧ i + skip = o + fieldWidth

end Elf

/-- The pieces written before the byte `i`: their room, labels, fields and bytes. -/
structure Laid (fle : Str) (elf : Elf) (i : ℕ) (ls : List (Label × ℕ)) (fs : List (Expr × ℕ))
    (s : Emit) : Prop where
  known : s.Known fle
  size_eq : size fieldWidth (s.pieces fle) = i + s.skip
  labels_eq : labels fieldWidth 0 (s.pieces fle) = ls
  fields_eq : fieldsAt fieldWidth 0 (s.pieces fle) = fs
  bytes_eq : ∀ enc : ℕ → Expr → List UInt8, (∀ p r, (enc p r).length = fieldWidth) → ∀ j < i,
    elf.Outside j → (image enc fieldWidth 0 (s.pieces fle))[j]? = elf.sectionData[j]?

namespace Laid

variable {fle : Str} {elf : Elf} {i : ℕ} {ls : List (Label × ℕ)} {fs : List (Expr × ℕ)} {s : Emit}

/-- More pieces do not change the bytes before them. -/
theorem bytes_append (h : Laid fle elf i ls fs s) (ps : List (Piece Label Expr))
    (enc : ℕ → Expr → List UInt8) (henc : ∀ p r, (enc p r).length = fieldWidth) (j : ℕ) (hj : j < i)
    (hout : elf.Outside j) :
    (image enc fieldWidth 0 (s.pieces fle ++ ps))[j]? = elf.sectionData[j]? := by
  have hlen := length_image henc 0 (s.pieces fle)
  have hsize := h.size_eq
  rw [image_append, List.getElem?_append_left (by omega)]
  exact h.bytes_eq enc henc j hj hout

theorem dump (h : Laid fle elf i ls fs s) : Laid fle elf i ls fs s.dump where
  known := h.known.dump
  size_eq := by rw [Emit.pieces_dump, Emit.skip_dump, h.size_eq]
  labels_eq := by rw [Emit.pieces_dump, h.labels_eq]
  fields_eq := by rw [Emit.pieces_dump, h.fields_eq]
  bytes_eq := by rw [Emit.pieces_dump]; exact h.bytes_eq

/-- A label is put down at the position of the byte. -/
theorem label (h : Laid fle elf i ls fs s) (hskip : s.skip = 0) (sym : Symbol) :
    Laid fle elf i (ls ++ [(sym.label fle, i)]) fs (s.label sym) := by
  have hpiece : pieceOf fle (if sym.symbType = .l then .localLabel sym.name
      else .globalLabel sym.name) = some (.label (sym.label fle)) := by
    unfold Symbol.label
    split_ifs <;> rfl
  have hpieces : (s.label sym).pieces fle = s.pieces fle ++ [.label (sym.label fle)] :=
    Emit.pieces_item hpiece s.dump.skip
  have hsize := h.size_eq
  rw [hskip] at hsize
  constructor
  · exact h.known.item hpiece s.dump.skip
  · rw [hpieces, size_append, hsize]
    simp [Emit.label, Emit.skip_dump, hskip, Piece.size]
  · rw [hpieces, labels_append, h.labels_eq, hsize, Nat.zero_add]
    rfl
  · rw [hpieces, fieldsAt_append, h.fields_eq]
    simp [fieldsAt]
  · rw [hpieces]
    exact h.bytes_append _

/-- The loop over the symbols: nothing is being skipped where a symbol stands. -/
theorem labels (h : Laid fle elf i ls fs s)
    (hskip : ∀ sym ∈ elf.symbols, sym.sec = elf.sec → sym.offset = i → s.skip = 0) :
    Laid fle elf i (ls ++ elf.labelsAt fle i) fs (s.labels elf i) := by
  unfold Emit.labels Elf.labelsAt
  revert hskip
  generalize elf.symbols = syms
  intro hskip
  induction syms generalizing s ls with
  | nil => simpa using h
  | cons sym syms ih =>
    rw [List.foldl_cons, List.filter_cons]
    by_cases hsym : sym.sec = elf.sec ∧ sym.offset = i
    · have hzero := hskip sym List.mem_cons_self hsym.1 hsym.2
      have hnext := ih (h.label hzero sym) fun sym' hsym' hsec hoff => by
        rw [Emit.skip_label, hzero]
      simpa [hsym] using hnext
    · have hnext := ih h fun sym' hsym' => hskip sym' (List.mem_cons_of_mem _ hsym')
      simpa [hsym] using hnext

/-- The relocation at the byte, if there is one. -/
theorem reloc (h : Laid fle elf i ls fs s) (hskip : i ∈ elf.relocations.keys → s.skip = 0) :
    Laid fle elf i ls (fs ++ elf.relocAt i) (s.reloc elf i) := by
  unfold Emit.reloc Elf.relocAt
  cases hget : elf.relocations.get? i with
  | none => simpa using h
  | some expr =>
    have hmem := elf.mem_keys_of_get? hget
    have hpieces := Emit.pieces_item (s := s)
      (show pieceOf fle (.reloc expr) = _ from rfl) relocSkip
    have hsize := h.size_eq
    rw [hskip hmem, Nat.add_zero] at hsize
    constructor
    · exact h.known.item (show pieceOf fle (.reloc expr) = _ from rfl) relocSkip
    · rw [hpieces, size_append, hsize]
      rfl
    · rw [hpieces, labels_append, h.labels_eq]
      simp [Layout.labels]
    · rw [hpieces, fieldsAt_append, h.fields_eq, hsize, Nat.zero_add]
      rfl
    · rw [hpieces]
      exact h.bytes_append _

/-- A byte of a relocation field is skipped. -/
theorem skip (h : Laid fle elf i ls fs s) (hskip : 0 < s.skip) (hin : ¬ elf.Outside i) (b : UInt8) :
    Laid fle elf (i + 1) ls fs (s.byte b) := by
  have hbyte : s.byte b = { s with skip := s.skip - 1 } := by
    rw [Emit.byte, if_pos hskip]
  rw [hbyte]
  refine ⟨h.known, ?_, h.labels_eq, h.fields_eq, ?_⟩
  · have hsize := h.size_eq
    show size fieldWidth (s.pieces fle) = i + 1 + (s.skip - 1)
    omega
  · intro enc henc j hj hout
    rcases Nat.lt_succ_iff_lt_or_eq.mp hj with hlt | rfl
    · exact h.bytes_eq enc henc j hlt hout
    · exact absurd hout hin

/-- Another byte is held. -/
theorem hold (h : Laid fle elf i ls fs s) (hskip : s.skip = 0) {b : UInt8}
    (hb : elf.sectionData[i]? = some b) : Laid fle elf (i + 1) ls fs (s.byte b) := by
  have hsize := h.size_eq
  rw [hskip, Nat.add_zero] at hsize
  have hheld : Laid fle elf (i + 1) ls fs (s.hold b) := by
    constructor
    · exact h.known
    · rw [Emit.size_hold, hsize]
      exact (congrArg (i + 1 + ·) hskip).symm
    · rw [Emit.labels_hold, h.labels_eq]
    · rw [Emit.fieldsAt_hold, h.fields_eq]
    · intro enc henc j hj hout
      have hlen := length_image henc 0 (s.pieces fle)
      rw [Emit.image_hold]
      rcases Nat.lt_succ_iff_lt_or_eq.mp hj with hlt | rfl
      · rw [List.getElem?_append_left (by omega)]
        exact h.bytes_eq enc henc j hlt hout
      · rw [List.getElem?_append_right (by omega), hlen, hsize, Nat.sub_self, hb]
        rfl
  rw [Emit.byte, if_neg (by omega)]
  -- a full chunk is written
  show Laid fle elf (i + 1) ls fs
    (if (s.hold b).holding.length = 16 then (s.hold b).dump else s.hold b)
  split_ifs
  · exact hheld.dump
  · exact hheld

end Laid

/-! ### The loop -/

section Loop

variable {fle : Str} {elf : Elf} {i : ℕ} {s : Emit}

theorem Emit.skip_labels (elf : Elf) (s : Emit) (i : ℕ) : (s.labels elf i).skip = s.skip := by
  unfold Emit.labels
  generalize elf.symbols = syms
  induction syms generalizing s with
  | nil => rfl
  | cons sym syms ih =>
    rw [List.foldl_cons, ih]
    split_ifs
    · exact skip_label s sym
    · rfl

/-- Inside a field there is neither a symbol nor a relocation. -/
theorem Elf.Spliceable.skip_eq_zero (helf : elf.Spliceable) {skip : ℕ}
    (hskip : elf.Skipping i skip) :
    (∀ sym ∈ elf.symbols, sym.sec = elf.sec → sym.offset = i → skip = 0) ∧
      (i ∈ elf.relocations.keys → skip = 0) := by
  constructor
  · intro sym hsym hsec hoff
    by_contra hpos
    obtain ⟨o, ho, hlt, heq⟩ := hskip (Nat.pos_of_ne_zero hpos)
    exact helf.symbols sym hsym hsec o ho (by omega)
  · intro hi
    by_contra hpos
    obtain ⟨o, ho, hlt, heq⟩ := hskip (Nat.pos_of_ne_zero hpos)
    have hgap := helf.gap o ho i hi hlt
    omega

/-- After the relocation at the byte `i`, what is skipped is the rest of a field around it. -/
theorem Emit.skip_reloc (s : Emit) (hskip : elf.Skipping i s.skip)
    (hpos : 0 < (s.reloc elf i).skip) :
    ∃ o ∈ elf.relocations.keys, o ≤ i ∧ i + (s.reloc elf i).skip = o + fieldWidth := by
  unfold Emit.reloc at hpos ⊢
  cases hget : elf.relocations.get? i with
  | none =>
    rw [hget] at hpos
    obtain ⟨o, ho, hlt, heq⟩ := hskip hpos
    exact ⟨o, ho, by omega, heq⟩
  | some expr => exact ⟨i, elf.mem_keys_of_get? hget, Nat.le_refl i, rfl⟩

theorem Emit.skip_byte (s : Emit) (b : UInt8) : (s.byte b).skip = s.skip - 1 := by
  by_cases hpos : s.skip > 0
  · rw [byte, if_pos hpos]
  · have hzero : s.skip = s.skip - 1 := by omega
    rw [byte, if_neg hpos]
    dsimp only
    split_ifs
    · rw [skip_dump]
      exact hzero
    · exact hzero

/-- **One byte keeps the invariant.** -/
theorem Laid.step (helf : elf.Spliceable) {ls : List (Label × ℕ)} {fs : List (Expr × ℕ)}
    (h : Laid fle elf i ls fs s) (hskip : elf.Skipping i s.skip) {b : UInt8}
    (hb : elf.sectionData[i]? = some b) :
    Laid fle elf (i + 1) (ls ++ elf.labelsAt fle i) (fs ++ elf.relocAt i) (s.step elf (b, i)) ∧
      elf.Skipping (i + 1) (s.step elf (b, i)).skip := by
  obtain ⟨hsym, hrel⟩ := helf.skip_eq_zero hskip
  have hlaid := (h.labels hsym).reloc fun hi => by rw [Emit.skip_labels]; exact hrel hi
  have hcur := Emit.skip_reloc (s.labels elf i) (by rw [Emit.skip_labels]; exact hskip)
  set t := (s.labels elf i).reloc elf i
  have hstep : s.step elf (b, i) = t.byte b := rfl
  rw [hstep, Emit.skip_byte]
  by_cases hpos : 0 < t.skip
  · obtain ⟨o, ho, hle, heq⟩ := hcur hpos
    refine ⟨hlaid.skip hpos (fun hout => hout o ho ⟨hle, by omega⟩) b, fun _ => ?_⟩
    exact ⟨o, ho, by omega, by omega⟩
  · exact ⟨hlaid.hold (by omega) hb, fun hlt => absurd hlt (by omega)⟩

/-- **The loop keeps the invariant**, over the bytes from `i` on. -/
theorem Laid.run (helf : elf.Spliceable) (bs : List UInt8) : ∀ (i : ℕ) (s : Emit),
    elf.sectionData.drop i = bs →
    Laid fle elf i ((List.range i).flatMap (elf.labelsAt fle)) ((List.range i).flatMap elf.relocAt)
      s → elf.Skipping i s.skip →
    Laid fle elf (i + bs.length) ((List.range (i + bs.length)).flatMap (elf.labelsAt fle))
        ((List.range (i + bs.length)).flatMap elf.relocAt) ((bs.zipIdx i).foldl (Emit.step elf) s) ∧
      elf.Skipping (i + bs.length) ((bs.zipIdx i).foldl (Emit.step elf) s).skip := by
  induction bs with
  | nil => exact fun i s _ h hskip => ⟨h, hskip⟩
  | cons b bs ih =>
    intro i s hdata h hskip
    have hb : elf.sectionData[i]? = some b := by
      rw [← Nat.add_zero i, ← List.getElem?_drop, hdata]
      rfl
    have htail : elf.sectionData.drop (i + 1) = bs := by
      rw [← List.drop_drop, hdata]
      rfl
    obtain ⟨hlaid, hskip'⟩ := h.step helf hskip hb
    have hnext := ih (i + 1) (s.step elf (b, i)) htail
      (by simpa [List.range_succ] using hlaid) hskip'
    rw [List.length_cons, show i + (bs.length + 1) = i + 1 + bs.length by omega, List.zipIdx_cons,
      List.foldl_cons]
    exact hnext

end Loop

/-! ### The section -/

/-- Sorted into classes by a number, the elements below `n` are all there. -/
theorem flatMap_range_filter_perm {α : Type*} (l : List α) (f : α → ℕ) (n : ℕ) :
    ((List.range n).flatMap fun i => l.filter fun a => f a = i).Perm
      (l.filter fun a => f a < n) := by
  induction n with
  | zero => simp
  | succ n ih =>
    have hsplit := List.filter_append_perm (fun a => decide (f a < n))
      (l.filter fun a => f a < n + 1)
    rw [List.filter_filter, List.filter_filter] at hsplit
    have hlt : (l.filter fun a => decide (f a < n) && decide (f a < n + 1)) =
        l.filter fun a => f a < n := by
      apply List.filter_congr
      intro a _
      simp only [← Bool.decide_and, decide_eq_decide]
      omega
    have heq : (l.filter fun a => !decide (f a < n) && decide (f a < n + 1)) =
        l.filter fun a => f a = n := by
      apply List.filter_congr
      intro a _
      simp only [← decide_not, ← Bool.decide_and, decide_eq_decide]
      omega
    rw [hlt, heq] at hsplit
    simp only [List.range_succ, List.flatMap_append, List.flatMap_singleton]
    exact (ih.append_right _).trans hsplit

/-- The symbols of the section with an offset below `n`, as labels. -/
def Elf.labelsBelow (elf : Elf) (fle : Str) (n : ℕ) : List (Label × ℕ) :=
  (elf.symbols.filter fun sym => sym.sec = elf.sec ∧ sym.offset < n).map fun sym =>
    (sym.label fle, sym.offset)

theorem Elf.labelsAt_perm (elf : Elf) (fle : Str) (n : ℕ) :
    ((List.range n).flatMap (elf.labelsAt fle)).Perm (elf.labelsBelow fle n) := by
  have hperm := (flatMap_range_filter_perm (elf.symbols.filter fun sym => sym.sec = elf.sec)
    Symbol.offset n).map fun sym => (sym.label fle, sym.offset)
  have hat : ∀ i, elf.labelsAt fle i = ((elf.symbols.filter fun sym => sym.sec = elf.sec).filter
      fun sym => sym.offset = i).map fun sym => (sym.label fle, sym.offset) := by
    intro i
    simp [labelsAt, List.filter_filter, Bool.and_comm]
  have hbelow : elf.labelsBelow fle n = ((elf.symbols.filter fun sym => sym.sec = elf.sec).filter
      fun sym => sym.offset < n).map fun sym => (sym.label fle, sym.offset) := by
    simp [labelsBelow, List.filter_filter, Bool.and_comm]
  rw [hbelow, show elf.labelsAt fle = fun i => _ from funext hat]
  rw [List.map_flatMap] at hperm
  exact hperm

theorem Elf.relocAt_perm (elf : Elf) {n : ℕ} (hn : ∀ o ∈ elf.relocations.keys, o < n) :
    ((List.range n).flatMap elf.relocAt).Perm
      (elf.relocations.entries.map fun e => (e.2, e.1)) := by
  have hall : elf.relocations.entries.filter (fun e => e.1 < n) = elf.relocations.entries := by
    rw [List.filter_eq_self]
    intro e he
    simpa using hn e.1 (List.mem_map_of_mem he)
  have hperm := (flatMap_range_filter_perm elf.relocations.entries Prod.fst n).map fun e =>
    (e.2, e.1)
  rw [hall, List.map_flatMap] at hperm
  have hat : ∀ i, elf.relocAt i =
      (elf.relocations.entries.filter fun e => e.1 = i).map fun e => (e.2, e.1) := by
    intro i
    rw [Dict.filter_eq_find elf.relocations.nodup, List.map_map]
    rfl
  rw [show elf.relocAt = fun i => _ from funext hat]
  exact hperm

/-- The items of a section lay out as the section. -/
structure Spliced (fle : Str) (elf : Elf) : Prop where
  known : ∀ item ∈ elfToFle elf, (pieceOf fle item).isSome
  size_eq : size fieldWidth ((elfToFle elf).filterMap (pieceOf fle)) = elf.sectionData.length
  labels_perm : (labels fieldWidth 0 ((elfToFle elf).filterMap (pieceOf fle))).Perm
    (elf.labelsBelow fle elf.sectionData.length)
  fields_perm : (fieldsAt fieldWidth 0 ((elfToFle elf).filterMap (pieceOf fle))).Perm
    (elf.relocations.entries.map fun e => (e.2, e.1))
  bytes_eq : ∀ enc : ℕ → Expr → List UInt8, (∀ p r, (enc p r).length = fieldWidth) →
    ∀ i < elf.sectionData.length, elf.Outside i →
      (image enc fieldWidth 0 ((elfToFle elf).filterMap (pieceOf fle)))[i]? =
        elf.sectionData[i]?

theorem Elf.Spliceable.spliced {elf : Elf} (helf : elf.Spliceable) (fle : Str) :
    Spliced fle elf := by
  have hstart : Laid fle elf 0 ((List.range 0).flatMap (elf.labelsAt fle))
      ((List.range 0).flatMap elf.relocAt) ⟨[], 0, []⟩ :=
    ⟨(fun item h => nomatch h), rfl, rfl, rfl, fun enc _ j hj => absurd hj (Nat.not_lt_zero j)⟩
  obtain ⟨hlaid, hskip⟩ := Laid.run helf elf.sectionData 0 ⟨[], 0, []⟩
    List.drop_zero hstart (fun h => absurd h (Nat.lt_irrefl 0))
  rw [Nat.zero_add] at hlaid hskip
  set s := (elf.sectionData.zipIdx 0).foldl (Emit.step elf) ⟨[], 0, []⟩
  -- no field goes beyond the end of the section
  have hzero : s.skip = 0 := by
    by_contra hpos
    obtain ⟨o, ho, -, heq⟩ := hskip (Nat.pos_of_ne_zero hpos)
    have := helf.inside o ho
    omega
  have hlast := hlaid.dump
  have hpieces : s.dump.pieces fle = (elfToFle elf).filterMap (pieceOf fle) := by
    rw [Emit.pieces, Emit.holding_dump, if_pos rfl, List.append_nil]
    rfl
  have hsize := hlast.size_eq
  rw [Emit.skip_dump, hzero, Nat.add_zero] at hsize
  refine ⟨hlast.known, hpieces ▸ hsize, ?_, ?_, hpieces ▸ hlast.bytes_eq⟩
  · rw [← hpieces, hlast.labels_eq]
    exact elf.labelsAt_perm fle _
  · rw [← hpieces, hlast.fields_eq]
    apply elf.relocAt_perm
    intro o ho
    have := helf.inside o ho
    unfold fieldWidth at this
    omega

/-- **`elf_to_fle` splices sections exactly.**  Every item is one that the linker knows, and laid
out by its rules the items take the room of the section; the labels are the symbols of the section
with an offset within it, each once and at its offset; the fields are its relocations, each once and
at its offset; and a byte outside the fields is where it was. -/
theorem elfToFle_spec {elf : Elf} (helf : elf.Spliceable) (fle : Str) :
    (∀ item ∈ elfToFle elf, (pieceOf fle item).isSome) ∧
      size fieldWidth ((elfToFle elf).filterMap (pieceOf fle)) = elf.sectionData.length ∧
      (labels fieldWidth 0 ((elfToFle elf).filterMap (pieceOf fle))).Perm
        (elf.labelsBelow fle elf.sectionData.length) ∧
      (fieldsAt fieldWidth 0 ((elfToFle elf).filterMap (pieceOf fle))).Perm
        (elf.relocations.entries.map fun e => (e.2, e.1)) ∧
      ∀ enc : ℕ → Expr → List UInt8, (∀ p r, (enc p r).length = fieldWidth) →
        ∀ i < elf.sectionData.length, elf.Outside i →
          (image enc fieldWidth 0 ((elfToFle elf).filterMap (pieceOf fle)))[i]? =
            elf.sectionData[i]? :=
  have h := helf.spliced fle
  ⟨h.known, h.size_eq, h.labels_perm, h.fields_perm, h.bytes_eq⟩

/-- Ten bytes of code with the field of a call at offset 5 and a label behind it. -/
def callElf : Elf where
  sec := ".text".toList
  sectionData := List.replicate 10 0x90
  symbols := [⟨.g, ".text".toList, 0, "main".toList⟩, ⟨.l, ".text".toList, 9, "end".toList⟩,
    ⟨.g, ".data".toList, 3, "table".toList⟩]
  relocations := ⟨[(5, .sub (.sub (.name "puts".toList) (.const 4)) .current)], by decide⟩

theorem callElf_spliceable : callElf.Spliceable where
  gap := by decide
  inside := by decide
  symbols := by decide

theorem elfToFle_spec_callElf :
    size fieldWidth ((elfToFle callElf).filterMap (pieceOf "a.fle".toList)) = 10 ∧
      (labels fieldWidth 0 ((elfToFle callElf).filterMap (pieceOf "a.fle".toList))).Perm
        [(.ofAll "main".toList, 0), (.ofFile "a.fle".toList "end".toList, 9)] ∧
      (fieldsAt fieldWidth 0 ((elfToFle callElf).filterMap (pieceOf "a.fle".toList))).Perm
        [(.sub (.sub (.name "puts".toList) (.const 4)) .current, 5)] ∧
      ∀ enc : ℕ → Expr → List UInt8, (∀ p r, (enc p r).length = fieldWidth) →
        ∀ i ∈ [0, 1, 2, 3, 4, 9],
          (image enc fieldWidth 0 ((elfToFle callElf).filterMap (pieceOf "a.fle".toList)))[i]? =
            some 0x90 := by
  obtain ⟨-, hsize, hlabels, hfields, hbytes⟩ := elfToFle_spec callElf_spliceable "a.fle".toList
  refine ⟨hsize, hlabels, hfields, fun enc henc i hi => ?_⟩
  have hlt : ∀ i ∈ [0, 1, 2, 3, 4, 9], i < callElf.sectionData.length := by decide
  have hbyte : ∀ i ∈ [0, 1, 2, 3, 4, 9], callElf.sectionData[i]? = some 0x90 := by decide
  have hout : ∀ i ∈ [0, 1, 2, 3, 4, 9], ∀ o ∈ callElf.relocations.keys,
      ¬(o ≤ i ∧ i < o + fieldWidth) := by decide
  rw [hbytes enc henc i (hlt i hi) (hout i hi), hbyte i hi]

example : elfToFle callElf =
    [.globalLabel "main".toList, .bytes "90 90 90 90 90".toList,
      .reloc (.sub (.sub (.name "puts".toList) (.const 4)) .current), .localLabel "end".toList,
      .bytes "90".toList] := by
  decide

end Jyyos.Fle
