import Jyyos.Fle.Exec
import Mathlib.Tactic.Common

/-!
# The loader reads what the linker wrote

The linker writes the image in lines of sixteen bytes in hexadecimal; the loader reads the lines
back.  `lineBytes_loadLine` is the round trip of one line, and `fleExec_writeExe` says that the
loader maps exactly the bytes of the last pass and jumps to `_start`.
-/

namespace Jyyos.Fle

open PyStr

/-! ### Hexadecimal digits -/

theorem hexValue_hexDigit : ∀ n < 16, hexValue (hexDigit n) = some n := by decide

theorem isSpace_hexDigit : ∀ n < 16, isSpace (hexDigit n) = false := by decide

theorem intHex_hex2 (b : UInt8) : intHex (hex2 b) = some b.toNat := by
  have hb : b.toNat < 256 := b.toNat_lt
  have hhigh := hexValue_hexDigit (b.toNat / 16) (by omega)
  have hlow := hexValue_hexDigit (b.toNat % 16) (by omega)
  have hsum : 16 * (b.toNat / 16) + b.toNat % 16 = b.toNat := Nat.div_add_mod _ _
  simp [intHex, hex2, hhigh, hlow, hsum]

theorem isSpace_of_mem_hex2 {b : UInt8} {c : Char} (h : c ∈ hex2 b) : isSpace c = false := by
  have hb : b.toNat < 256 := b.toNat_lt
  rcases List.mem_pair.mp h with rfl | rfl
  · exact isSpace_hexDigit _ (by omega)
  · exact isSpace_hexDigit _ (by omega)

theorem bytesOf_map_toNat (bs : List UInt8) : bytesOf (bs.map UInt8.toNat) = some bs := by
  induction bs with
  | nil => rfl
  | cons b bs ih =>
    have hb : b.toNat < 256 := b.toNat_lt
    rw [bytesOf] at ih ⊢
    rw [List.map_cons, List.mapM_cons, if_pos hb, ih, UInt8.ofNat_toNat]
    rfl

/-! ### Words -/

theorem splitLoop_word {w : Str} (hw : ∀ c ∈ w, isSpace c = false) (word rest : Str) :
    splitLoop word (w ++ rest) = splitLoop (w.reverse ++ word) rest := by
  induction w generalizing word with
  | nil => rfl
  | cons c w ih =>
    have hc : isSpace c = false := hw c List.mem_cons_self
    rw [List.cons_append, splitLoop, hc, if_neg Bool.false_ne_true,
      ih fun d hd => hw d (List.mem_cons_of_mem _ hd)]
    simp

/-- Joining words with blanks and splitting gives the words back. -/
theorem split_join (ws : List Str) (hne : ∀ w ∈ ws, w ≠ [])
    (hws : ∀ w ∈ ws, ∀ c ∈ w, isSpace c = false) : split (join ' ' ws) = ws := by
  induction ws with
  | nil => rfl
  | cons w ws ih =>
    have hw := splitLoop_word (hws w List.mem_cons_self) []
    have hnil : w.reverse ++ [] ≠ [] := by simpa using hne w List.mem_cons_self
    cases ws with
    | nil =>
      have hlast := hw []
      rw [List.append_nil] at hlast
      rw [join, split, hlast, splitLoop, if_neg hnil]
      simp
    | cons t ts =>
      have hspace : isSpace ' ' = true := by decide
      rw [join, split, hw, splitLoop, if_pos hspace, if_neg hnil, ← split,
        ih (fun w hw => hne w (List.mem_cons_of_mem _ hw))
          (fun w hw => hws w (List.mem_cons_of_mem _ hw))]
      simp

/-! ### Lines -/

theorem mapM_intHex (bs : List UInt8) :
    (bs.map hex2).mapM intHex = some (bs.map UInt8.toNat) := by
  induction bs with
  | nil => rfl
  | cons b bs ih =>
    rw [List.map_cons, List.mapM_cons, intHex_hex2, ih]
    rfl

/-- **A line that the linker writes reads back as its bytes.** -/
theorem lineBytes_loadLine (part : List UInt8) : lineBytes (loadLine part) = .ok part := by
  have hline : loadLine part = (BYTES ++ [':']) ++ ' ' :: join ' ' (part.map hex2) := by
    simp [loadLine]
  have hpre : (BYTES ++ [':']).isPrefixOf (loadLine part) = true := by
    rw [hline, List.isPrefixOf_iff_prefix]
    exact List.prefix_append _ _
  have hspace : isSpace ' ' = true := by decide
  -- the blank after the tag is skipped
  have hsplit : split (' ' :: join ' ' (part.map hex2)) = part.map hex2 := by
    rw [split, splitLoop, if_pos hspace, if_pos rfl, ← split]
    apply split_join
    · intro w hw
      obtain ⟨b, -, rfl⟩ := List.mem_map.mp hw
      exact List.cons_ne_nil _ _
    · intro w hw c hc
      obtain ⟨b, -, rfl⟩ := List.mem_map.mp hw
      exact isSpace_of_mem_hex2 hc
  rw [lineBytes, if_pos hpre, hline, List.drop_left, hsplit, mapM_intHex]
  simp only [bind, Option.bind_some, bytesOf_map_toNat]

theorem flatten_parts {n : ℕ} (hn : 0 < n) (fuel : ℕ) (bs : List UInt8) (h : bs.length ≤ fuel) :
    (parts n fuel bs).flatten = bs := by
  induction fuel generalizing bs with
  | zero =>
    have hnil : bs = [] := List.eq_nil_of_length_eq_zero (by omega)
    rw [hnil]
    rfl
  | succ fuel ih =>
    cases bs with
    | nil => rfl
    | cons b bs =>
      have hdrop : ((b :: bs).drop n).length ≤ fuel := by
        rw [List.length_drop]
        simp only [List.length_cons] at h ⊢
        omega
      rw [parts, List.flatten_cons, ih _ hdrop, List.take_append_drop]

theorem foldlM_lineBytes (ps : List (List UInt8)) (bs : List UInt8) :
    (ps.map loadLine).foldlM (fun bs line => do return bs ++ (← lineBytes line)) bs =
      (.ok (bs ++ ps.flatten) : Except Error (List UInt8)) := by
  induction ps generalizing bs with
  | nil => simp [pure, Except.pure]
  | cons p ps ih =>
    rw [List.map_cons, List.foldlM_cons, lineBytes_loadLine]
    show List.foldlM _ (bs ++ p) _ = _
    rw [ih, List.flatten_cons, List.append_assoc]

/-- **The loader reads back the bytes of the last pass.** -/
theorem loadBytes_writeExe (st : Ld) : loadBytes (writeExe st).load = .ok st.res := by
  have hload := foldlM_lineBytes (parts 16 st.res.length st.res) []
  rwa [flatten_parts (by omega) _ _ (Nat.le_refl _), List.nil_append] at hload

/-- **The loader maps the bytes of the last pass** and jumps to `_start`. -/
theorem fleExec_writeExe {st : Ld} (hne : st.res ≠ []) {entry : ℤ}
    (hstart : (symbolsGlobal st.symbols).get? "_start".toList = some entry) :
    fleExec (writeExe st) = .ok ⟨st.res, entry⟩ := by
  have htype : (writeExe st).type = ".exe".toList := rfl
  have hsymbols : (writeExe st).symbols.get? "_start".toList = some entry := hstart
  simp only [fleExec, loadBytes_writeExe, hsymbols, htype, ne_eq, not_true_eq_false, if_false,
    bind, Except.bind, pure, Except.pure, if_neg hne]

end Jyyos.Fle
