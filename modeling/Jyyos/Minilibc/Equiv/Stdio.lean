import Jyyos.Decimal
import Jyyos.Minilibc.Stdio
import Mathlib.Data.List.Basic
import Mathlib.Data.List.GetD
import Mathlib.Tactic.IntervalCases

/-!
# What `print_int` and `printf` write

`print_int` writes the decimal numeral of every `int` but the least one, whose negation is itself:
for that number it writes a minus sign and no digits (`printInt_renders_iff`).

A format is cut into pieces (`pieces`), and `expand` says what the pieces with their arguments stand
for.  `printf` writes it, unless the last piece is a percent sign with nothing behind it: then the
pointer steps over the NUL, and the loop goes on to read behind the format (`printf_eq_expand_iff`).
-/

namespace Jyyos.Minilibc

/-! ### Decimal numerals -/

/-- The decimal numeral of an integer. -/
def numeral (z : ℤ) : CStr := if z < 0 then '-'.toUInt8 :: decimal z.natAbs else decimal z.natAbs

/-- The digits of a positive number, the last one first; none for zero. -/
def digitsBack (n : ℕ) : List UInt8 := if n = 0 then [] else (decimal n).reverse

/-- The last digit comes off the end. -/
theorem decimal_eq (n : ℕ) : decimal n =
    if n < 10 then [n.digitChar.toUInt8] else decimal (n / 10) ++ [(n % 10).digitChar.toUInt8] := by
  unfold decimal
  rw [Nat.toDigits_eq_if (by omega)]
  split_ifs
  · rfl
  · simp [cstr]

theorem digitsBack_pos {n : ℕ} (hn : 0 < n) :
    digitsBack n = (n % 10).digitChar.toUInt8 :: digitsBack (n / 10) := by
  unfold digitsBack
  rw [if_neg (by omega), decimal_eq]
  by_cases hlt : n < 10
  · rw [if_pos hlt, if_pos (by omega), Nat.mod_eq_of_lt hlt]
    rfl
  · rw [if_neg hlt, if_neg (by omega), List.reverse_append]
    rfl

/-- A number below `2 ^ 31` has at most ten digits. -/
theorem length_digitsBack_le {n : ℕ} (hn : n < 2 ^ 31) : (digitsBack n).length ≤ 10 := by
  unfold digitsBack
  split_ifs
  · simp
  · rw [List.length_reverse, decimal, cstr, List.length_map,
      Nat.length_toDigits_le_iff (by omega) (by omega)]
    omega

/-- A numeral begins with a zero only if it is that of zero. -/
theorem head?_decimal (n : ℕ) : (decimal n).head? = some '0'.toUInt8 → n = 0 := by
  induction n using Nat.strong_induction_on with
  | _ n ih =>
  rw [decimal_eq]
  by_cases hlt : n < 10
  · rw [if_pos hlt]
    interval_cases n <;> decide
  · rw [if_neg hlt, List.head?_append_of_ne_nil _ (decimal_ne_nil _)]
    intro hhead
    have := ih (n / 10) (by omega) hhead
    omega

theorem isdigit_head {n : ℕ} {c : UInt8} (h : (decimal n).head? = some c) : isdigit c :=
  isDigit_of_mem_decimal (List.mem_of_mem_head? h)

theorem head?_numeral (z : ℤ) : (numeral z).head? = some '-'.toUInt8 ↔ z < 0 := by
  unfold numeral
  split_ifs with hz
  · simp [hz]
  · refine ⟨fun h => ?_, fun h => absurd h hz⟩
    cases isdigit_head h

/-- `atoi` reads a numeral back. -/
theorem atoi_numeral {z : ℤ} (hlo : -2 ^ 31 ≤ z) (hhi : z < 2 ^ 31) : atoi (numeral z) = z := by
  unfold numeral
  split_ifs with hz
  · have hdrop : ('-'.toUInt8 :: decimal z.natAbs).dropWhile isspace =
        '-'.toUInt8 :: decimal z.natAbs := List.dropWhile_cons_of_neg (by decide)
    rw [atoi, hdrop]
    simp only [↓reduceIte]
    rw [digitsValue_decimal, toInt_of_lt] <;> omega
  · rw [atoi_decimal (by omega)]
    omega

/-! ### `print_int` -/

theorem digitChar_eq {number : Int32} (h : 0 ≤ number.toInt) :
    digitChar number = (number.toInt.toNat % 10).digitChar.toUInt8 := by
  have hmod : (number % 10).toInt = (number.toInt.toNat % 10 : ℕ) := by
    rw [Int32.toInt_mod, show (10 : Int32).toInt = 10 from rfl, Int.tmod_eq_emod_of_nonneg h]
    omega
  have hlt : number.toInt.toNat % 10 < 10 := Nat.mod_lt _ (by omega)
  generalize number.toInt.toNat % 10 = d at hmod hlt
  have hd : number % 10 = Int32.ofNat d := by
    rw [← Int32.toInt_inj, hmod, Int32.toInt_ofNat_of_lt (by omega)]
  rw [digitChar, hd]
  interval_cases d <;> rfl

/-- The loop stores the digits of the number behind what `temp` has, if there is room. -/
theorem convert_eq (n : ℕ) : ∀ (number : Int32) (temp : List UInt8), number.toInt = n →
    temp.length + (digitsBack n).length ≤ tempSize →
    convert number temp = .ok (temp ++ digitsBack n) := by
  induction n using Nat.strong_induction_on with
  | _ n ih =>
  intro number temp hnumber hroom
  rw [convert]
  by_cases hpos : 0 < number
  · have hn : 0 < n := by
      rw [Int32.lt_iff_toInt_lt, Int32.toInt_zero] at hpos
      omega
    rw [digitsBack_pos hn, List.length_cons] at hroom
    have hdiv : (number / 10).toInt = (n / 10 : ℕ) := by
      rw [toInt_div_ten, hnumber]
      rfl
    rw [if_pos hpos, if_pos (by omega), digitChar_eq (by omega), hnumber,
      ih (n / 10) (by omega) (number / 10) _ hdiv
        (by rw [List.length_append]; simpa using by omega),
      digitsBack_pos hn]
    simp
  · have hn : n = 0 := by
      rw [Int32.lt_iff_toInt_lt, Int32.toInt_zero] at hpos
      omega
    rw [if_neg hpos, hn, digitsBack, if_pos rfl, List.append_nil]

theorem copyBack_eq (temp : List UInt8) : ∀ (i : ℕ) (buffer : List UInt8), i ≤ temp.length →
    copyBack temp i buffer = buffer ++ (temp.take i).reverse := by
  intro i
  induction i with
  | zero => simp [copyBack]
  | succ i ih =>
    intro buffer hi
    rw [copyBack, ih _ (by omega), List.take_succ_eq_append_getElem (by omega), List.reverse_append,
      List.getD_eq_getElem?_getD, List.getElem?_eq_getElem (by omega)]
    simp

/-- The digits of a number that is not negative fit into `temp`. -/
theorem fillTemp_eq {number : Int32} {n : ℕ} (hnumber : number.toInt = n) (hn : n < 2 ^ 31) :
    fillTemp number = .ok (decimal n).reverse := by
  unfold fillTemp
  split_ifs with hzero
  · have hn0 : n = 0 := by
      rw [hzero, Int32.toInt_zero] at hnumber
      omega
    rw [hn0]
    rfl
  · have hne : n ≠ 0 := by
      intro hn0
      apply hzero
      rw [← Int32.toInt_inj, hnumber, hn0]
      rfl
    have hlen := length_digitsBack_le hn
    rw [convert_eq n number [] hnumber (by unfold tempSize; simpa using by omega), digitsBack,
      if_neg hne]
    rfl

/-- The number without its sign, unless it is the least. -/
theorem toInt_abs {number : Int32} (h : number ≠ Int32.minValue) :
    (if number < 0 then -number else number).toInt = number.toInt.natAbs := by
  have hlo := number.le_toInt
  have hhi := number.toInt_lt
  have hmin : number.toInt ≠ -2 ^ 31 := fun heq => h (Int32.toInt_inj.mp heq)
  split_ifs with hneg
  · rw [Int32.lt_iff_toInt_lt, Int32.toInt_zero] at hneg
    rw [Int32.toInt_neg, Int.bmod_eq_of_le (by omega) (by omega)]
    omega
  · rw [Int32.lt_iff_toInt_lt, Int32.toInt_zero] at hneg
    omega

/-- **`print_int` writes the numeral** of any number but the least. -/
theorem printInt_eq {number : Int32} (h : number ≠ Int32.minValue) :
    printInt number = .ok (numeral number.toInt, (numeral number.toInt).length) := by
  have hlt : number.toInt.natAbs < 2 ^ 31 := by
    have habs := toInt_abs h
    have hhi := (if number < 0 then -number else number).toInt_lt
    omega
  have hsign : number < 0 ↔ number.toInt < 0 := by
    rw [Int32.lt_iff_toInt_lt, Int32.toInt_zero]
  simp only [printInt, decide_eq_true_eq, fillTemp_eq (toInt_abs h) hlt]
  show Except.ok _ = _
  simp only [copyBack_eq _ _ _ le_rfl, List.take_length, List.reverse_reverse, numeral, hsign]
  split_ifs <;> rfl

/-- The least number is its own negation and not positive, so the loop stores no digit. -/
theorem printInt_minValue : printInt Int32.minValue = .ok (['-'.toUInt8], 1) := by
  have hconvert : convert Int32.minValue [] = .ok [] := by
    rw [convert]
    rfl
  have hneg : -Int32.minValue = Int32.minValue := by decide
  have hlt : Int32.minValue < 0 := by decide
  have hne : Int32.minValue ≠ 0 := by decide
  simp only [printInt, decide_eq_true_eq, hlt, hneg, ↓reduceIte, fillTemp, hne, hconvert]
  rfl

/-- What is asked of `print_int`: the characters are the decimal numeral of the number, with a minus
sign iff it is negative and with no leading zero, they are read back as the number, and the number
returned is that of the characters. -/
structure Renders (number : Int32) (written : CStr) (count : ℕ) : Prop where
  eq_numeral : written = numeral number.toInt
  sign : written.head? = some '-'.toUInt8 ↔ number < 0
  leading : (written.filter isdigit).head? = some '0'.toUInt8 → number = 0
  value : atoi written = number.toInt
  count_eq : count = written.length

theorem renders_numeral (number : Int32) :
    Renders number (numeral number.toInt) (numeral number.toInt).length where
  eq_numeral := rfl
  sign := by rw [head?_numeral, Int32.lt_iff_toInt_lt, Int32.toInt_zero]
  leading := by
    have hdigits : (decimal number.toInt.natAbs).filter isdigit = decimal number.toInt.natAbs :=
      List.filter_eq_self.mpr fun c => isDigit_of_mem_decimal
    have hfilter : (numeral number.toInt).filter isdigit = decimal number.toInt.natAbs := by
      unfold numeral
      split_ifs
      · rw [List.filter_cons_of_neg (by decide), hdigits]
      · exact hdigits
    rw [hfilter]
    intro hhead
    have hzero := head?_decimal _ hhead
    rw [← Int32.toInt_inj, Int32.toInt_zero]
    omega
  value := atoi_numeral number.le_toInt number.toInt_lt
  count_eq := rfl

/-- A minus sign is not the numeral of the least `int`. -/
theorem not_renders_minus (count : ℕ) : ¬ Renders Int32.minValue ['-'.toUInt8] count := by
  intro h
  exact absurd h.value (by decide)

/-- **When `print_int` renders its number**: always, except for the least `int`.  The result `ok`
says that no store was behind the end of `temp`. -/
theorem printInt_renders_iff (number : Int32) :
    (∃ written count, printInt number = .ok (written, count) ∧ Renders number written count) ↔
      number ≠ Int32.minValue := by
  constructor
  · rintro ⟨written, count, hprint, hrenders⟩ rfl
    rw [printInt_minValue] at hprint
    obtain ⟨rfl, -⟩ := Prod.mk.inj (Except.ok.inj hprint)
    exact not_renders_minus count hrenders
  · intro h
    exact ⟨_, _, printInt_eq h, renders_numeral number⟩

/-- The numeral of the least `int` is not written. -/
theorem printInt_least : ¬ ∃ written count,
    printInt Int32.minValue = .ok (written, count) ∧ Renders Int32.minValue written count := by
  rintro ⟨written, count, hprint, hrenders⟩
  rw [printInt_minValue] at hprint
  obtain ⟨rfl, -⟩ := Prod.mk.inj (Except.ok.inj hprint)
  exact not_renders_minus count hrenders

/-! ### The format language -/

/-- A piece of a format: a character, one of the specifiers `%s`, `%d` and `%%`, a percent sign with
another character, or a percent sign at the end. -/
inductive Piece where
  | char (c : UInt8)
  | str
  | int
  | percent
  | other (c : UInt8)
  | openPercent
deriving DecidableEq, Repr

/-- The piece of a percent sign with the character `c`. -/
def Piece.ofChar (c : UInt8) : Piece :=
  if c = 's'.toUInt8 then .str
  else if c = 'd'.toUInt8 then .int
  else if c = '%'.toUInt8 then .percent
  else .other c

/-- The pieces of a format. -/
def pieces : CStr → List Piece
  | [] => []
  | [c] => if c = '%'.toUInt8 then [.openPercent] else [.char c]
  | c :: d :: format =>
    if c = '%'.toUInt8 then .ofChar d :: pieces format else .char c :: pieces (d :: format)

theorem pieces_char {c : UInt8} (hc : c ≠ '%'.toUInt8) (rest : CStr) :
    pieces (c :: rest) = .char c :: pieces rest := by
  cases rest with
  | nil => simp only [pieces, if_neg hc]
  | cons d rest => rw [pieces, if_neg hc]

theorem pieces_percent (d : UInt8) (rest : CStr) :
    pieces ('%'.toUInt8 :: d :: rest) = .ofChar d :: pieces rest := by
  rw [pieces, if_pos rfl]

/-- What the pieces stand for; `none` when the arguments do not match them. -/
def expand : List Piece → List Arg → Option CStr
  | [], _ => some []
  | .char c :: ps, args => (expand ps args).map (c :: ·)
  | .str :: ps, .str s :: args => (expand ps args).map (s.getD nullText ++ ·)
  | .int :: ps, .int n :: args => (expand ps args).map (numeral n.toInt ++ ·)
  | .percent :: ps, args => (expand ps args).map ('%'.toUInt8 :: ·)
  | .other c :: ps, args => (expand ps args).map ('%'.toUInt8 :: c :: ·)
  | .openPercent :: ps, args => (expand ps args).map ('%'.toUInt8 :: ·)
  | _ :: _, _ => none

/-! ### The loop of `printf` -/

section Loop

variable {format : CStr} {p : ℕ}

theorem charAt_of_drop {c : UInt8} {rest : CStr} (h : format.drop p = c :: rest) :
    charAt format p = .ok c := by
  have hget := getElem?_of_drop h
  have hlt : p < format.length := (List.getElem?_eq_some_iff.mp hget).1
  rw [charAt, if_pos hlt.le, List.getD_eq_getElem?_getD, hget]
  rfl

theorem charAt_length : charAt format format.length = .ok 0 := by
  rw [charAt, if_pos le_rfl, List.getD_eq_default _ _ le_rfl]

theorem length_of_drop_nil (hp : p ≤ format.length) (h : format.drop p = []) : p = format.length :=
  le_antisymm hp (List.drop_eq_nil_iff.mp h)

theorem put_eq {buffer cs : List UInt8} (h : buffer.length + cs.length ≤ bufferSize) :
    put buffer cs = .ok (buffer ++ cs) := if_pos h

variable {fuel : ℕ} {args : List Arg} {buffer : List UInt8}

/-- At the NUL the loop ends. -/
theorem printfLoop_end : printfLoop format (fuel + 1) format.length args buffer = .ok buffer := by
  rw [printfLoop, charAt_length]
  rfl

/-- A character is copied. -/
theorem printfLoop_char {c : UInt8} {rest : CStr} (h : format.drop p = c :: rest) (hc0 : c ≠ 0)
    (hc : c ≠ '%'.toUInt8) : printfLoop format (fuel + 1) p args buffer =
      put buffer [c] >>= printfLoop format fuel (p + 1) args := by
  rw [printfLoop, charAt_of_drop h]
  show (if c = 0 then _ else _) = _
  rw [if_neg hc0, if_pos hc]

/-- After a percent sign the pointer is advanced twice. -/
theorem printfLoop_percent {rest : CStr} (h : format.drop p = '%'.toUInt8 :: rest) :
    printfLoop format (fuel + 1) p args buffer = charAt format (p + 1) >>= fun c =>
      specifier c args buffer >>= fun r => printfLoop format fuel (p + 2) r.1 r.2 := by
  rw [printfLoop, charAt_of_drop h]
  rfl

/-- What the `switch` stores is what the specifier stands for. -/
theorem specifier_eq {d : UInt8} {ps : List Piece} {out : CStr}
    (hargs : ∀ n, .int n ∈ args → n ≠ Int32.minValue)
    (h : expand (.ofChar d :: ps) args = some out)
    (hfit : buffer.length + out.length ≤ bufferSize) :
    ∃ part args' out', specifier d args buffer = .ok (args', buffer ++ part) ∧
      expand ps args' = some out' ∧ out = part ++ out' ∧ ∀ a ∈ args', a ∈ args := by
  unfold Piece.ofChar at h
  unfold specifier
  split_ifs at h ⊢ with hs hd hp
  · match args, h with
    | .str s :: args, h =>
      obtain ⟨out', hout', rfl⟩ := Option.map_eq_some_iff.mp h
      rw [List.length_append] at hfit
      refine ⟨s.getD nullText, args, out', ?_, hout', rfl, fun a => List.mem_cons_of_mem _⟩
      show (put buffer (s.getD nullText) >>= fun buffer => pure (args, buffer)) = _
      rw [put_eq (by omega)]
      rfl
  · match args, h with
    | .int n :: args, h =>
      obtain ⟨out', hout', rfl⟩ := Option.map_eq_some_iff.mp h
      rw [List.length_append] at hfit
      refine ⟨numeral n.toInt, args, out', ?_, hout', rfl, fun a => List.mem_cons_of_mem _⟩
      simp only [printInt_eq (hargs n List.mem_cons_self)]
      show (put buffer (numeral n.toInt) >>= fun buffer => pure (args, buffer)) = _
      rw [put_eq (by omega)]
      rfl
  · obtain ⟨out', hout', rfl⟩ := Option.map_eq_some_iff.mp h
    rw [List.length_cons] at hfit
    refine ⟨['%'.toUInt8], args, out', ?_, hout', rfl, fun a => id⟩
    rw [put_eq (by simpa using by omega)]
    rfl
  · obtain ⟨out', hout', rfl⟩ := Option.map_eq_some_iff.mp h
    rw [List.length_cons, List.length_cons] at hfit
    refine ⟨['%'.toUInt8, d], args, out', ?_, hout', rfl, fun a => id⟩
    rw [put_eq (by simpa using by omega)]
    show (put (buffer ++ ['%'.toUInt8]) [d] >>= fun buffer => pure (args, buffer)) = _
    rw [put_eq (by simpa using by omega), List.append_assoc]
    rfl

/-- **The loop writes what the rest of the format stands for**, if no percent sign is left open. -/
theorem printfLoop_eq (h0 : 0 ∉ format) (fuel : ℕ) : ∀ {p : ℕ} {args : List Arg}
    {buffer out : List UInt8}, p ≤ format.length → format.length - p < fuel →
    (∀ n, .int n ∈ args → n ≠ Int32.minValue) →
    expand (pieces (format.drop p)) args = some out →
    buffer.length + out.length ≤ bufferSize → .openPercent ∉ pieces (format.drop p) →
    printfLoop format fuel p args buffer = .ok (buffer ++ out) := by
  induction fuel with
  | zero => exact fun _ hfuel => absurd hfuel (Nat.not_lt_zero _)
  | succ fuel ih =>
    intro p args buffer out hp hfuel hargs hout hfit hopen
    cases hrest : format.drop p with
    | nil =>
      rw [hrest] at hout
      obtain rfl := Option.some.inj hout
      rw [length_of_drop_nil hp hrest, printfLoop_end, List.append_nil]
    | cons c rest =>
      have hlen := congrArg List.length hrest
      rw [List.length_drop, List.length_cons] at hlen
      have hdrop := drop_succ_of_drop hrest
      by_cases hc : c = '%'.toUInt8
      · subst hc
        cases rest with
        | nil => exact absurd (hrest ▸ List.mem_singleton_self _) hopen
        | cons d rest =>
          have hdrop₂ : format.drop (p + 2) = rest := drop_succ_of_drop hdrop
          rw [hrest, pieces_percent, ← hdrop₂] at hout hopen
          obtain ⟨part, args', out', hspec, hout', rfl, hsub⟩ := specifier_eq hargs hout hfit
          rw [List.length_append] at hfit
          rw [printfLoop_percent hrest, charAt_of_drop hdrop]
          show (specifier d args buffer >>= _) = _
          rw [hspec, ← List.append_assoc]
          rw [List.length_cons] at hlen
          exact ih (by omega) (by omega) (fun n hn => hargs n (hsub _ hn)) hout'
            (by rw [List.length_append]; omega) fun hmem => hopen (List.mem_cons_of_mem _ hmem)
      · have hc0 : c ≠ 0 := by
          rintro rfl
          exact h0 (List.mem_of_mem_drop (hrest ▸ List.mem_cons_self))
        rw [hrest, pieces_char hc, ← hdrop] at hout hopen
        obtain ⟨out', hout', rfl⟩ := Option.map_eq_some_iff.mp hout
        rw [List.length_cons] at hfit
        rw [printfLoop_char hrest hc0 hc, put_eq (by simpa using by omega),
          List.append_cons buffer c out']
        exact ih (by omega) (by omega) hargs hout' (by simpa using by omega)
          fun hmem => hopen (List.mem_cons_of_mem _ hmem)

/-- Behind the NUL there is nothing to read. -/
theorem printfLoop_overread (hp : format.length < p) (r : List UInt8) :
    printfLoop format fuel p args buffer ≠ .ok r := by
  cases fuel with
  | zero => exact nofun
  | succ fuel =>
    rw [printfLoop, charAt, if_neg (by omega)]
    exact nofun

theorem bind_ne_ok {α β : Type} {x : Except Fault α} {f : α → Except Fault β} {r : β}
    (h : ∀ a, f a ≠ .ok r) : x >>= f ≠ .ok r := by
  cases x with
  | error fault => exact nofun
  | ok a => exact h a

/-- **With an open percent sign the loop reads behind the format**, or has failed before. -/
theorem printfLoop_open (fuel : ℕ) : ∀ {p : ℕ} {args : List Arg} {buffer : List UInt8},
    0 ∉ format.drop p → .openPercent ∈ pieces (format.drop p) →
    ∀ r, printfLoop format fuel p args buffer ≠ .ok r := by
  induction fuel with
  | zero => exact fun _ _ _ => nofun
  | succ fuel ih =>
    intro p args buffer h0 hopen r
    cases hrest : format.drop p with
    | nil =>
      rw [hrest] at hopen
      cases hopen
    | cons c rest =>
      have hlen := congrArg List.length hrest
      rw [List.length_drop, List.length_cons] at hlen
      have hdrop := drop_succ_of_drop hrest
      rw [hrest] at h0
      by_cases hc : c = '%'.toUInt8
      · subst hc
        rw [printfLoop_percent hrest]
        apply bind_ne_ok
        intro d'
        apply bind_ne_ok
        intro args'
        cases rest with
        | nil =>
          rw [List.length_nil] at hlen
          exact printfLoop_overread (by omega) r
        | cons d rest =>
          have hdrop₂ : format.drop (p + 2) = rest := drop_succ_of_drop hdrop
          rw [hrest, pieces_percent, ← hdrop₂] at hopen
          refine ih ?_ ?_ r
          · rw [hdrop₂]
            exact fun hmem => h0 (List.mem_cons_of_mem _ (List.mem_cons_of_mem _ hmem))
          · refine (List.mem_cons.mp hopen).resolve_left ?_
            unfold Piece.ofChar
            split_ifs <;> exact nofun
      · rw [hrest, pieces_char hc, ← hdrop] at hopen
        rw [printfLoop_char hrest (fun hc0 => h0 (hc0 ▸ List.mem_cons_self)) hc]
        apply bind_ne_ok
        intro buffer'
        refine ih ?_ ((List.mem_cons.mp hopen).resolve_left nofun) r
        rw [hdrop]
        exact fun hmem => h0 (List.mem_cons_of_mem _ hmem)

end Loop

/-- **When `printf` follows its format language.**  For a format with matching arguments whose
expansion fits into the buffer, the expansion is written and its length returned iff the format does
not end in an open percent sign.  Where it does, the format is read behind its NUL. -/
theorem printf_eq_expand_iff {format : CStr} (h0 : 0 ∉ format) {args : List Arg}
    (hargs : ∀ n, .int n ∈ args → n ≠ Int32.minValue) {out : CStr}
    (hout : expand (pieces format) args = some out) (hfit : out.length ≤ bufferSize) :
    printf format args = .ok (out, out.length) ↔ .openPercent ∉ pieces format := by
  constructor
  · intro hprintf hopen
    unfold printf at hprintf
    have hne : ∀ r, printfLoop format (format.length + 1) 0 args [] ≠ .ok r :=
      printfLoop_open (format.length + 1) h0 hopen
    cases hloop : printfLoop format (format.length + 1) 0 args [] with
    | error fault =>
      rw [hloop] at hprintf
      cases hprintf
    | ok buffer => exact hne buffer hloop
  · intro hopen
    have hloop : printfLoop format (format.length + 1) 0 args [] = .ok ([] ++ out) :=
      printfLoop_eq h0 (format.length + 1) (Nat.zero_le _) (by omega) hargs hout
        (by simpa using hfit) hopen
    rw [printf, hloop]
    rfl

/-- The format `n=%d %s%%` with `-5` and a null string. -/
theorem printf_eq_expand_iff_mixed :
    printf (cstr ['n', '=', '%', 'd', ' ', '%', 's', '%', '%']) [.int (-5), .str none] =
      .ok (cstr ['n', '=', '-', '5', ' ', '(', 'n', 'u', 'l', 'l', ')', '%'], 12) := by
  refine (printf_eq_expand_iff (by decide) ?_ ?_ (by decide)).mpr (by decide)
  · intro n hn
    rcases List.mem_cons.mp hn with hn | hn
    · cases hn
      decide
    · exact absurd hn (by simp)
  · decide

/-- The format `%` alone stands for itself; its NUL is taken for the character after the percent
sign, and the loop reads on behind it. -/
theorem printf_single_percent : expand (pieces ['%'.toUInt8]) [] = some ['%'.toUInt8] ∧
    printf ['%'.toUInt8] [] = .error .overread ∧
    printf ['%'.toUInt8] [] ≠ .ok (['%'.toUInt8], 1) := by
  decide

end Jyyos.Minilibc
