import Jyyos.Fle.Equiv.Sections
import Mathlib.Data.List.Pairwise
import Mathlib.Tactic.Common

/-!
# The two passes

The first pass evaluates every relocation with whatever the table holds at that moment, so the
bytes it produces mean nothing; but each relocation gives four bytes whatever the values are, as
long as they are small, and so the labels enter the table at their positions in the layout
(`first_pass`).

The second pass sets every label again.  It sets it to the value that the table already has, which
changes nothing (`Dict.set_of_get?_eq`): throughout the second pass the table is the one that the
first pass has left, and the relocations see the final positions of all labels (`second_pass`).
-/

namespace Jyyos.Fle

open Layout

/-! ### Keys of labels -/

/-- The key of a label in the table of symbols. -/
def Label.key : Label → Str
  | .ofFile fle symb => localKey fle symb
  | .ofAll symb => symb

/-- The name of a label. -/
def Label.name : Label → Str
  | .ofFile _ symb => symb
  | .ofAll symb => symb

theorem dot_mem_localKey (fle symb : Str) : '.' ∈ localKey fle symb := by
  simp [localKey]

/-- The name can be read off the key of a label of a file. -/
theorem takeWhile_localKey {fle symb : Str} (h : '.' ∉ symb) :
    (localKey fle symb).reverse.takeWhile (· != '.') = symb.reverse := by
  have hall : ∀ c ∈ symb.reverse, (c != '.') = true := by
    intro c hc
    rw [List.mem_reverse] at hc
    rw [bne_iff_ne]
    exact fun hdot => h (hdot ▸ hc)
  rw [localKey, List.reverse_append, List.reverse_cons, List.append_assoc,
    List.takeWhile_append_of_pos hall]
  simp

theorem localKey_inj {fle fle' symb symb' : Str} (h : '.' ∉ symb) (h' : '.' ∉ symb')
    (heq : localKey fle symb = localKey fle' symb') : fle = fle' ∧ symb = symb' := by
  have hsymb : symb = symb' := by
    have hrev : (localKey fle symb).reverse.takeWhile (· != '.') = symb.reverse :=
      takeWhile_localKey h
    rw [heq, takeWhile_localKey h'] at hrev
    exact (List.reverse_inj.mp hrev).symm
  subst hsymb
  exact ⟨List.append_cancel_right heq, rfl⟩

theorem Label.key_inj {k l : Label} (hk : Plain k.name) (hl : Plain l.name)
    (h : k.key = l.key) : k = l := by
  cases k with
  | ofFile fle symb =>
    cases l with
    | ofFile fle' symb' =>
      obtain ⟨rfl, rfl⟩ := localKey_inj hk.1 hl.1 h
      rfl
    | ofAll symb' =>
      have hdot : '.' ∈ (Label.ofAll symb').key := h ▸ dot_mem_localKey fle symb
      exact absurd hdot hl.1
  | ofAll symb =>
    cases l with
    | ofFile fle' symb' =>
      have hdot : '.' ∈ (Label.ofAll symb).key := h ▸ dot_mem_localKey fle' symb'
      exact absurd hdot hk.1
    | ofAll symb' => exact congrArg Label.ofAll h

theorem Label.key_ne_i32 {k : Label} (hk : Plain k.name) : k.key ≠ "i32".toList := by
  cases k with
  | ofFile fle symb =>
    intro h
    have hdot : '.' ∈ "i32".toList := h ▸ dot_mem_localKey fle symb
    exact absurd hdot (by decide)
  | ofAll symb => exact hk.2

/-! ### Fields -/

theorem length_littleEndian (x : ℤ) : (littleEndian x).length = 4 := rfl

/-- In the range of 32 bits `to_bytes` gives the two's complement. -/
theorem toBytes4_eq {x : ℤ} (hlo : -2 ^ 31 ≤ x) (hhi : x < 2 ^ 31) :
    PyStr.toBytes4 x = some (littleEndian x) := by
  rw [PyStr.toBytes4, if_pos ⟨hlo, hhi⟩]
  have hbyte : ∀ i : ℕ, ((BitVec.ofInt 32 x).extractLsb' (8 * i) 8).toNat.toUInt8 =
      UInt8.ofNat ((x % 2 ^ 32).toNat / 2 ^ (8 * i)) := by
    intro i
    rw [BitVec.extractLsb'_toNat, BitVec.toNat_ofInt, Nat.shiftRight_eq_div_pow]
    exact UInt8.toNat_inj.mp (by simp)
  have hlist : littleEndian x = (List.range 4).map fun i =>
      UInt8.ofNat ((x % 2 ^ 32).toNat / 2 ^ (8 * i)) := List.map_congr_left fun i _ => hbyte i
  rw [hlist]
  simp [List.range_succ]

/-- What a relocation evaluates to. -/
theorem eval_target {lookup : Str → Except Error Val} {p n : ℕ} {e : Expr} {s : Str} {c : ℤ}
    (he : e.target = some (s, c)) (hi32 : lookup "i32".toList = .ok .i32)
    (hs : lookup s = .ok (.int n)) (hdebug : s ≠ "__debug__".toList)
    (hlo : -2 ^ 31 ≤ n + c - p) (hhi : n + c - p < 2 ^ 31) :
    eval lookup p e = .ok (.bytes (littleEndian (n + c - p))) := by
  have hne : "i32".toList ≠ "__debug__".toList := by decide
  unfold Expr.target at he
  split at he
  · split_ifs at he with hf
    cases he
    simp only [eval, hf, if_neg hne, if_neg hdebug, hi32, hs, bind, Except.bind,
      toBytes4_eq hlo hhi]
  · split_ifs at he with hf
    cases he
    have hsub : ∀ c : ℤ, (n : ℤ) + -c - p = n - c - p := fun c => by omega
    rw [hsub] at hlo hhi ⊢
    simp only [eval, hf, if_neg hne, if_neg hdebug, hi32, hs, bind, Except.bind,
      toBytes4_eq hlo hhi]
  · cases he

/-! ### What a step does -/

/-- Adding bytes. -/
def Ld.emit (st : Ld) (bs : List UInt8) : Ld := { st with res := st.res ++ bs }

theorem length_emit (st : Ld) (bs : List UInt8) :
    (st.emit bs).res.length = st.res.length + bs.length := List.length_append

/-- **What one step of a pass does**, by the piece that the item is: a label is set, bytes and
fields are emitted.  A global label must be new in the first pass; the bytes of a field depend on
what its name means at that moment. -/
theorem ldStep_cases (fle : Str) {item : Item} (h : ItemOk item) :
    (∃ l : Label, toPiece fle item = some (.label l) ∧ Plain l.name ∧
      ∀ iter st, (iter = 0 → ∀ symb, item.global? = some symb → symb ∉ st.symbols.keys) →
        ldStep iter st (fle, item) = .ok (st.define l.key)) ∨
    (∃ bs, toPiece fle item = some (.data bs) ∧
      ∀ iter st, ldStep iter st (fle, item) = .ok (st.emit bs)) ∨
    (∃ r : Field, toPiece fle item = some (.field r) ∧ Plain r.name ∧
      ∀ iter st, ∀ n : ℕ, r.name ≠ "__debug__".toList →
        getitem iter r.fle st.symbols "i32".toList = .ok .i32 →
        getitem iter r.fle st.symbols r.name = .ok (.int n) → n < 2 ^ 30 →
        st.res.length < 2 ^ 30 →
        ldStep iter st (fle, item) =
          .ok (st.emit (littleEndian (n + r.addend - st.res.length)))) ∨
    (toPiece fle item = none ∧ ∀ iter st, ldStep iter st (fle, item) = .ok st) := by
  cases item with
  | globalLabel symb =>
    refine Or.inl ⟨.ofAll symb, rfl, h, fun iter st hfresh => ?_⟩
    exact if_neg fun hmem => hfresh hmem.1 symb rfl hmem.2
  | localLabel symb => exact Or.inl ⟨.ofFile fle symb, rfl, h, fun iter st _ => rfl⟩
  | bytes xs =>
    obtain ⟨bs, hbs⟩ := Option.isSome_iff_exists.mp h
    refine Or.inr (Or.inl ⟨bs, ?_, fun iter st => ?_⟩)
    · rw [toPiece, hbs, Option.map_some]
    · rw [ldStep, ldItem, hbs]
      rfl
  | reloc expr =>
    obtain ⟨⟨s, c⟩, htarget, hs, hlo, hhi⟩ := h
    rw [Option.mem_def] at htarget
    refine Or.inr (Or.inr (Or.inl
      ⟨⟨fle, s, c⟩, ?_, hs, fun iter st n hdebug hi32 hn hlt hlen => ?_⟩))
    · rw [toPiece, htarget, Option.map_some]
    · -- the distances are small, so `to_bytes` does not overflow
      rw [ldStep, ldItem, eval_target htarget hi32 hn hdebug (by omega) (by omega)]
      rfl
  | other => exact Or.inr (Or.inr (Or.inr ⟨rfl, fun iter st => rfl⟩))

/-- The pieces that the items are. -/
def pieces (xs : List (Str × Item)) : List (Piece Label Field) :=
  xs.filterMap fun x => toPiece x.1 x.2

theorem pieces_cons_some {x : Str × Item} {a : Piece Label Field} (h : toPiece x.1 x.2 = some a)
    (xs : List (Str × Item)) : pieces (x :: xs) = a :: pieces xs :=
  List.filterMap_cons_some h

theorem pieces_cons_none {x : Str × Item} (h : toPiece x.1 x.2 = none) (xs : List (Str × Item)) :
    pieces (x :: xs) = pieces xs :=
  List.filterMap_cons_none h

/-! ### The first pass -/

/-- What a pass over the pieces sets, from position `p` on. -/
def assignments (p : ℕ) (ps : List (Piece Label Field)) : List (Str × Val) :=
  (labels fieldWidth p ps).map fun e => (e.1.key, .int e.2)

/-- A table of symbols: the function, and otherwise small integers. -/
structure TableOk (symbols : Dict Str Val) : Prop where
  i32 : symbols.get? "i32".toList = some .i32
  int : ∀ k v, k ≠ "i32".toList → symbols.get? k = some v → ∃ n : ℕ, v = .int n ∧ n < 2 ^ 30

theorem TableOk.define {st : Ld} (h : TableOk st.symbols) (hlen : st.res.length < 2 ^ 30)
    {key : Str} (hkey : key ≠ "i32".toList) : TableOk (st.define key).symbols where
  i32 := by
    rw [Ld.define, Dict.get?_set_of_ne _ hkey.symm]
    exact h.i32
  int k v hk hv := by
    rw [Ld.define, Dict.get?_set] at hv
    split_ifs at hv
    · cases hv
      exact ⟨st.res.length, rfl, hlen⟩
    · exact h.int k v hk hv

theorem TableOk.getitem_i32 {symbols : Dict Str Val} (h : TableOk symbols) (fle : Str) :
    getitem 0 fle symbols "i32".toList = .ok .i32 := by
  rw [getitem, if_pos rfl, h.i32]
  rfl

/-- In the first pass every name has some small value. -/
theorem TableOk.getitem_zero {symbols : Dict Str Val} (h : TableOk symbols) (fle : Str)
    {key : Str} (hkey : key ≠ "i32".toList) :
    ∃ n : ℕ, getitem 0 fle symbols key = .ok (.int n) ∧ n < 2 ^ 30 := by
  rw [getitem, if_pos rfl]
  cases hv : symbols.get? key with
  | none => exact ⟨0, rfl, by omega⟩
  | some v =>
    obtain ⟨n, rfl, hn⟩ := h.int key v hkey hv
    exact ⟨n, rfl, hn⟩

/-- The global labels that the items define. -/
def globals (xs : List (Str × Item)) : List Str := xs.filterMap fun x => x.2.global?

theorem plain_of_mem_globals {xs : List (Str × Item)} (hok : ∀ x ∈ xs, ItemOk x.2) {symb : Str}
    (h : symb ∈ globals xs) : Plain symb := by
  obtain ⟨x, hx, hsymb⟩ := List.mem_filterMap.mp h
  have hitem := hok x hx
  cases hcase : x.2 with
  | globalLabel symb' =>
    rw [hcase] at hsymb hitem
    cases hsymb
    exact hitem
  | _ =>
    rw [hcase] at hsymb
    cases hsymb

/-- Global labels still to come stay new when the label of an item is set. -/
theorem fresh_define {fle : Str} {item : Item} {l : Label} {xs : List (Str × Item)} {st : Ld}
    (hl : toPiece fle item = some (.label l)) (hok : ∀ x ∈ xs, ItemOk x.2)
    (hnodup : (globals ((fle, item) :: xs)).Nodup)
    (hfresh : ∀ symb ∈ globals ((fle, item) :: xs), symb ∉ st.symbols.keys) :
    ∀ symb ∈ globals xs, symb ∉ (st.define l.key).symbols.keys := by
  intro symb hsymb hmem
  have hsub : symb ∈ globals ((fle, item) :: xs) :=
    ((List.sublist_cons_self _ _).filterMap _).subset hsymb
  have hkey : symb = l.key := ((Dict.mem_keys_setEntry _).mp hmem).resolve_right (hfresh symb hsub)
  -- the new key is a global label of this item, which is defined once, or has a dot
  cases item with
  | globalLabel symb' =>
    cases hl
    have hsame : symb = symb' := hkey
    exact (List.nodup_cons.mp hnodup).1 (hsame ▸ hsymb)
  | localLabel symb' =>
    cases hl
    exact (plain_of_mem_globals hok hsymb).1 (hkey ▸ dot_mem_localKey fle symb')
  | bytes xs' => simp [toPiece] at hl
  | reloc expr => simp [toPiece] at hl
  | other => cases hl

/-- **The first pass sets every label to its position.** -/
theorem first_pass (xs : List (Str × Item)) (hok : ∀ x ∈ xs, ItemOk x.2)
    (hdebug : ∀ r : Field, .field r ∈ pieces xs → r.name ≠ "__debug__".toList) :
    ∀ st : Ld, TableOk st.symbols → (∀ symb ∈ globals xs, symb ∉ st.symbols.keys) →
      (globals xs).Nodup → st.res.length + size fieldWidth (pieces xs) < 2 ^ 30 →
      ∃ res, xs.foldlM (ldStep 0) st =
        .ok ⟨st.symbols.update (assignments st.res.length (pieces xs)), res⟩ := by
  induction xs with
  | nil => exact fun st _ _ _ _ => ⟨st.res, rfl⟩
  | cons x xs ih =>
    intro st htable hfresh hnodup hsize
    obtain ⟨fle, item⟩ := x
    have hxsdebug : ∀ r : Field, .field r ∈ pieces xs → r.name ≠ "__debug__".toList :=
      fun r hr => hdebug r (((List.sublist_cons_self _ _).filterMap _).subset hr)
    have hxs : ∀ y ∈ xs, ItemOk y.2 := fun y hy => hok y (List.mem_cons_of_mem _ hy)
    have hsub : (globals xs).Sublist (globals ((fle, item) :: xs)) :=
      (List.sublist_cons_self _ _).filterMap _
    have hfresh' : ∀ symb ∈ globals xs, symb ∉ st.symbols.keys :=
      fun symb hsymb => hfresh symb (hsub.subset hsymb)
    have hnodup' : (globals xs).Nodup := hnodup.sublist hsub
    rw [List.foldlM_cons]
    rcases ldStep_cases fle (hok (fle, item) List.mem_cons_self) with
      ⟨l, hl, hplain, hstep⟩ | ⟨bs, hbs, hstep⟩ | ⟨r, hr, hplain, hstep⟩ | ⟨hnone, hstep⟩
    · -- a label
      rw [pieces_cons_some hl] at hsize ⊢
      have hlen : st.res.length < 2 ^ 30 := by omega
      have hnew : ∀ symb, item.global? = some symb → symb ∉ st.symbols.keys := by
        intro symb hsymb
        exact hfresh symb (List.mem_filterMap.mpr ⟨(fle, item), List.mem_cons_self, hsymb⟩)
      rw [hstep 0 st fun _ => hnew]
      have hsize' : (st.define l.key).res.length + size fieldWidth (pieces xs) < 2 ^ 30 := by
        simpa [Piece.size, Ld.define] using hsize
      exact ih hxs hxsdebug (st.define l.key) (htable.define hlen (Label.key_ne_i32 hplain))
        (fresh_define hl hxs hnodup hfresh) hnodup' hsize'
    · -- bytes
      rw [pieces_cons_some hbs] at hsize ⊢
      rw [hstep 0 st]
      have hsize' : (st.emit bs).res.length + size fieldWidth (pieces xs) < 2 ^ 30 := by
        rw [size_cons, Piece.size] at hsize
        rw [length_emit]
        omega
      have hres := ih hxs hxsdebug (st.emit bs) htable hfresh' hnodup' hsize'
      rwa [length_emit] at hres
    · -- a field: four bytes, whatever they are
      rw [pieces_cons_some hr] at hdebug hsize ⊢
      rw [size_cons, Piece.size] at hsize
      obtain ⟨n, hn, hlt⟩ := htable.getitem_zero r.fle hplain.2
      obtain ⟨bs, hbs, hfour⟩ : ∃ bs, ldStep 0 st (fle, item) = .ok (st.emit bs) ∧
          bs.length = fieldWidth :=
        ⟨_, hstep 0 st n (hdebug r List.mem_cons_self) (htable.getitem_i32 r.fle) hn hlt
          (by omega), length_littleEndian _⟩
      rw [hbs]
      have hsize' : (st.emit bs).res.length + size fieldWidth (pieces xs) < 2 ^ 30 := by
        rw [length_emit]
        omega
      have hres := ih hxs hxsdebug (st.emit bs) htable hfresh' hnodup' hsize'
      rwa [length_emit, hfour] at hres
    · rw [pieces_cons_none hnone] at hsize ⊢
      rw [hstep 0 st]
      exact ih hxs hxsdebug st htable hfresh' hnodup' hsize

/-! ### The second pass -/

/-- **In the second pass the table stands still**, and every field gets the distance to what its
name means in it. -/
theorem second_pass {symbols : Dict Str Val} {meaning : Str → Str → ℕ}
    (hi32 : ∀ fle, getitem 1 fle symbols "i32".toList = .ok .i32) (xs : List (Str × Item))
    (hok : ∀ x ∈ xs, ItemOk x.2) :
    ∀ res : List UInt8,
      (∀ e ∈ labels fieldWidth res.length (pieces xs),
        symbols.get? e.1.key = some (.int e.2)) →
      (∀ r : Field, .field r ∈ pieces xs → r.name ≠ "__debug__".toList ∧
        meaning r.fle r.name < 2 ^ 30 ∧
        getitem 1 r.fle symbols r.name = .ok (.int (meaning r.fle r.name))) →
      res.length + size fieldWidth (pieces xs) < 2 ^ 30 →
      xs.foldlM (ldStep 1) ⟨symbols, res⟩ = .ok ⟨symbols, res ++
        image (fun p r => littleEndian (meaning r.fle r.name + r.addend - p)) fieldWidth
          res.length (pieces xs)⟩ := by
  induction xs with
  | nil =>
    intro res _ _ _
    show Except.ok _ = Except.ok _
    rw [pieces, List.filterMap_nil, image, List.append_nil]
  | cons x xs ih =>
    intro res hlabels hfields hsize
    obtain ⟨fle, item⟩ := x
    have hxs : ∀ y ∈ xs, ItemOk y.2 := fun y hy => hok y (List.mem_cons_of_mem _ hy)
    rw [List.foldlM_cons]
    rcases ldStep_cases fle (hok (fle, item) List.mem_cons_self) with
      ⟨l, hl, hplain, hstep⟩ | ⟨bs, hbs, hstep⟩ | ⟨r, hr, hplain, hstep⟩ | ⟨hnone, hstep⟩
    · -- the label is set to the value that it has
      rw [pieces_cons_some hl] at hlabels hfields hsize ⊢
      have hget : symbols.get? l.key = some (.int res.length) := hlabels _ List.mem_cons_self
      have hdefine : Ld.define ⟨symbols, res⟩ l.key = ⟨symbols, res⟩ := by
        rw [Ld.define, Dict.set_of_get?_eq hget]
      rw [hstep 1 _ (fun hiter => absurd hiter Nat.one_ne_zero), hdefine]
      apply ih hxs res (fun e he => hlabels e (List.mem_cons_of_mem _ he))
        (fun r hr => hfields r (List.mem_cons_of_mem _ hr))
      simpa [Piece.size] using hsize
    · -- bytes move the position on
      rw [pieces_cons_some hbs] at hlabels hfields hsize ⊢
      rw [size_cons, Piece.size] at hsize
      rw [hstep 1 _]
      have hlen : (res ++ bs).length = res.length + bs.length := List.length_append
      have hres := ih hxs (res ++ bs) (by rw [hlen]; exact hlabels)
        (fun r hr => hfields r (List.mem_cons_of_mem _ hr)) (by omega)
      rw [hlen, List.append_assoc] at hres
      exact hres
    · -- a field: its name has the value that the first pass has left, and its four bytes move the
      -- position on
      rw [pieces_cons_some hr] at hlabels hfields hsize ⊢
      rw [size_cons, Piece.size] at hsize
      obtain ⟨hdebug, hlt, hget⟩ := hfields r List.mem_cons_self
      rw [hstep 1 _ _ hdebug (hi32 r.fle) hget hlt (by show res.length < 2 ^ 30; omega)]
      generalize hbs : littleEndian _ = bs
      have hlen : (res ++ bs).length = res.length + fieldWidth := by
        rw [List.length_append, ← hbs]
        rfl
      have hres := ih hxs (res ++ bs) (by rw [hlen]; exact hlabels)
        (fun r hr => hfields r (List.mem_cons_of_mem _ hr)) (by omega)
      rw [hlen, List.append_assoc, ← hbs] at hres
      rw [← hbs]
      exact hres
    · rw [pieces_cons_none hnone] at hlabels hfields hsize ⊢
      rw [hstep 1 _]
      exact ih hxs res hlabels hfields hsize

end Jyyos.Fle
