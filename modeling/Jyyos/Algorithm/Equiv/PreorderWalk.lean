import Jyyos.Algorithm.PreorderWalk
import Mathlib.Data.List.Forall2
import Mathlib.Data.List.Lex
import Mathlib.Data.List.Nodup
import Mathlib.Tactic.Common

/-!
# The preorder walk visits what lies below, once and in order

A walk that returns has visited exactly the places below its start (`mem_walk`), and if the
children of each vertex come in strictly increasing order then the places come in the
lexicographic order of their ways down from the root (`pairwise_walk`), which is what preorder
means.

Whether it returns is a matter of the shape of the hierarchy.  The relation `next` may have cycles
elsewhere; it is enough that no vertex is a child of two others (`UniqueParent`) and that the start
is nobody's child.  Then the way from a vertex up to the start is determined by the vertex
(`Below.eq_of_head`), so no way visits a vertex twice (`Below.nodup`): were it to, the part of the
way above the second visit would be a shorter way to the same vertex.  Ways are therefore no longer
than there are vertices, and so much fuel suffices (`walk_isSome`).
-/

namespace Jyyos.PreorderWalk

variable {α : Type*} {next : α → List α}

/-! ### Places below a place -/

theorem Below.ne_nil {p c : List α} (h : Below next p c) (hp : p ≠ []) : c ≠ [] := by
  cases h with
  | refl => exact hp
  | step h hb => exact List.cons_ne_nil _ _

theorem Below.trans {p q c : List α} (h : Below next p q) (h' : Below next q c) :
    Below next p c := by
  induction h' with
  | refl => exact h
  | step _ hb ih => exact ih.step hb

/-- A place is reached from above at once or through a child. -/
theorem below_cons_iff {a : α} {path c : List α} :
    Below next (a :: path) c ↔
      c = a :: path ∨ ∃ b ∈ next a, Below next (b :: a :: path) c := by
  constructor
  · intro h
    induction h with
    | refl => exact Or.inl rfl
    | step h hb ih =>
      right
      rcases ih with heq | ⟨b, hba, hbc⟩
      · -- the step taken is the first one
        cases heq
        exact ⟨_, hb, .refl⟩
      · exact ⟨b, hba, hbc.step hb⟩
  · rintro (rfl | ⟨b, hb, h⟩)
    · exact .refl
    · exact (Below.step .refl hb).trans h

/-- A place below `p` ends in `p`. -/
theorem Below.suffix {p c : List α} (h : Below next p c) : p <:+ c := by
  induction h with
  | refl => exact List.suffix_rfl
  | step _ _ ih => exact ih.trans (List.suffix_cons _ _)

/-! ### What a walk visits -/

/-- A list of computations all of which return. -/
theorem mapM_eq_some_iff {β : Type*} {f : α → Option β} {l : List α} {ls : List β} :
    l.mapM f = some ls ↔ l.map f = ls.map some := by
  induction l generalizing ls with
  | nil => cases ls <;> simp
  | cons a l ih =>
    rw [List.mapM_cons]
    cases ls with
    | nil => cases f a <;> cases l.mapM f <;> simp
    | cons b ls =>
      rw [List.map_cons, List.map_cons, List.cons.injEq, ← ih]
      cases f a <;> cases l.mapM f <;> simp

theorem exists_result {β : Type*} {f : α → Option β} {l : List α} {ls : List β}
    (h : l.map f = ls.map some) {a : α} (ha : a ∈ l) : ∃ b ∈ ls, f a = some b := by
  have hmem : f a ∈ ls.map some := h ▸ List.mem_map_of_mem ha
  obtain ⟨b, hb, hab⟩ := List.mem_map.mp hmem
  exact ⟨b, hb, hab.symm⟩

theorem exists_argument {β : Type*} {f : α → Option β} {l : List α} {ls : List β}
    (h : l.map f = ls.map some) {b : β} (hb : b ∈ ls) : ∃ a ∈ l, f a = some b := by
  have hmem : some b ∈ l.map f := h ▸ List.mem_map_of_mem hb
  exact List.mem_map.mp hmem

/-- A walk lists its start and then what the walks from the children list. -/
theorem walk_succ {fuel : ℕ} {path : List α} {a : α} {cs : List (List α)} :
    walk next (fuel + 1) path a = some cs ↔
      ∃ below : List (List (List α)), (next a).map (walk next fuel (a :: path)) = below.map some ∧
        (a :: path) :: below.flatten = cs := by
  simp only [walk, bind, Option.bind_eq_some_iff, mapM_eq_some_iff, pure, Option.some.injEq]

/-- **A walk that returns has visited exactly the places below its start.** -/
theorem mem_walk {fuel : ℕ} {path : List α} {a : α} {cs : List (List α)}
    (h : walk next fuel path a = some cs) (c : List α) : c ∈ cs ↔ Below next (a :: path) c := by
  induction fuel generalizing path a cs c with
  | zero => cases h
  | succ fuel ih =>
    obtain ⟨below, hbelow, rfl⟩ := walk_succ.mp h
    rw [List.mem_cons, List.mem_flatten, below_cons_iff]
    apply or_congr Iff.rfl
    constructor
    · rintro ⟨l, hl, hc⟩
      obtain ⟨b, hb, hbl⟩ := exists_argument hbelow hl
      exact ⟨b, hb, (ih hbl c).mp hc⟩
    · rintro ⟨b, hb, hbc⟩
      obtain ⟨l, hl, hbl⟩ := exists_result hbelow hb
      exact ⟨l, hl, (ih hbl c).mpr hbc⟩

/-- What stands under one child comes before what stands under a later one. -/
theorem Below.lex_of_rel {r : α → α → Prop} {p c d : List α} {a b : α}
    (hc : Below next (a :: p) c) (hd : Below next (b :: p) d) (hab : r a b) :
    List.Lex r c.reverse d.reverse := by
  obtain ⟨s, rfl⟩ := hc.suffix
  obtain ⟨t, rfl⟩ := hd.suffix
  simp only [List.reverse_append, List.reverse_cons, List.append_assoc]
  exact List.Lex.append_left _ (List.Lex.rel hab) _

/-- A place comes before what stands under it. -/
theorem Below.lex_of_child {r : α → α → Prop} {p c : List α} {b : α}
    (hc : Below next (b :: p) c) : List.Lex r p.reverse c.reverse := by
  obtain ⟨s, rfl⟩ := hc.suffix
  simp only [List.reverse_append, List.reverse_cons, List.append_assoc]
  have h : List.Lex r (p.reverse ++ []) (p.reverse ++ ([b] ++ s.reverse)) :=
    List.Lex.append_left r .nil p.reverse
  rwa [List.append_nil] at h

/-- **The places are visited in the lexicographic order of the ways down to them**, when the
children of each vertex are listed in increasing order. -/
theorem pairwise_walk {r : α → α → Prop} (hr : ∀ a, (next a).Pairwise r) {fuel : ℕ}
    {path : List α} {a : α} {cs : List (List α)} (h : walk next fuel path a = some cs) :
    cs.Pairwise fun c d => List.Lex r c.reverse d.reverse := by
  induction fuel generalizing path a cs with
  | zero => cases h
  | succ fuel ih =>
    obtain ⟨below, hbelow, rfl⟩ := walk_succ.mp h
    rw [List.pairwise_cons, List.pairwise_flatten]
    refine ⟨?_, ?_, ?_⟩
    · -- the start against everything below it
      intro c hc
      obtain ⟨l, hl, hcl⟩ := List.mem_flatten.mp hc
      obtain ⟨b, -, hbl⟩ := exists_argument hbelow hl
      exact ((mem_walk hbl c).mp hcl).lex_of_child
    · intro l hl
      obtain ⟨b, -, hbl⟩ := exists_argument hbelow hl
      exact ih hbl
    · -- the children are in order, and with them what stands under them
      have hlists : (below.map some).Pairwise fun l m => ∃ x y, r x y ∧
          walk next fuel (a :: path) x = l ∧ walk next fuel (a :: path) y = m := by
        rw [← hbelow, List.pairwise_map]
        exact (hr a).imp fun {x y} hxy => ⟨x, y, hxy, rfl, rfl⟩
      rw [List.pairwise_map] at hlists
      refine hlists.imp ?_
      rintro l m ⟨x, y, hxy, hx, hy⟩ c hc d hd
      exact ((mem_walk hx c).mp hc).lex_of_rel ((mem_walk hy d).mp hd) hxy

/-! ### Ways up are determined -/

/-- No vertex is a child of two others. -/
def UniqueParent (next : α → List α) : Prop :=
  ∀ a b c, c ∈ next a → c ∈ next b → a = b

/-- A way up to a start that is nobody's child is determined by where it begins. -/
theorem Below.eq_of_head {root : α} (hu : UniqueParent next) (hroot : ∀ a, root ∉ next a)
    {a : α} {c d : List α} (hc : Below next [root] (a :: c)) (hd : Below next [root] (a :: d)) :
    c = d := by
  generalize hp : a :: c = p at hc
  induction hc generalizing a c d with
  | refl =>
    cases hp
    cases hd with
    | refl => rfl
    | step _ hb => exact absurd hb (hroot _)
  | @step x y e hxe hyx ih =>
    cases hp
    generalize hq : y :: d = q at hd
    cases hd with
    | refl =>
      cases hq
      exact absurd hyx (hroot _)
    | step hd hb =>
      cases hq
      have hx := hu _ _ _ hyx hb
      subst hx
      rw [ih hd rfl]

/-- What stands on a way up from a vertex begins a way up itself. -/
theorem Below.of_suffix {root a : α} {c s : List α} (h : Below next [root] c)
    (hs : a :: s <:+ c) : Below next [root] (a :: s) := by
  induction h with
  | refl =>
    have hlen := hs.length_le
    have hnil : s = [] := List.eq_nil_of_length_eq_zero (by simpa using hlen)
    subst hnil
    obtain ⟨t, ht⟩ := hs
    have ht' : t = [] := by
      cases t with
      | nil => rfl
      | cons x t => simp at ht
    subst ht'
    cases ht
    exact .refl
  | step h hb ih =>
    rcases List.suffix_cons_iff.mp hs with heq | hs'
    · rw [heq]
      exact h.step hb
    · exact ih hs'

/-- **No way up visits a vertex twice.** -/
theorem Below.nodup {root : α} (hu : UniqueParent next) (hroot : ∀ a, root ∉ next a)
    {c : List α} (h : Below next [root] c) : c.Nodup := by
  induction h with
  | refl => exact List.nodup_singleton _
  | @step a b c h hb ih =>
    refine List.nodup_cons.mpr ⟨fun hmem => ?_, ih⟩
    -- a second visit of `b` would begin a shorter way up from `b`
    obtain ⟨s, t, hst⟩ := List.append_of_mem hmem
    have hsuffix : b :: t <:+ a :: c := ⟨s, hst.symm⟩
    have heq := (h.of_suffix hsuffix).eq_of_head hu hroot (h.step hb)
    have hlen := hsuffix.length_le
    rw [heq] at hlen
    simp only [List.length_cons] at hlen
    omega

/-- More fuel changes nothing. -/
theorem walk_mono {fuel fuel' : ℕ} (hle : fuel ≤ fuel') {path : List α} {a : α}
    {cs : List (List α)} (h : walk next fuel path a = some cs) :
    walk next fuel' path a = some cs := by
  induction fuel generalizing fuel' path a cs with
  | zero => cases h
  | succ fuel ih =>
    obtain ⟨fuel', rfl⟩ := Nat.exists_eq_add_of_le' (Nat.le_of_add_left_le hle)
    obtain ⟨below, hbelow, rfl⟩ := walk_succ.mp h
    refine walk_succ.mpr ⟨below, ?_, rfl⟩
    rw [← hbelow]
    apply List.map_congr_left
    intro b hb
    obtain ⟨l, -, hl⟩ := exists_result hbelow hb
    rw [hl]
    exact ih (by omega) hl

/-- **Fuel above the length of every way up suffices.** -/
theorem walk_isSome {root : α} {n : ℕ} (hn : ∀ c, Below next [root] c → c.length ≤ n) :
    ∀ (fuel : ℕ) (path : List α) (a : α), Below next [root] (a :: path) →
      n < fuel + path.length → ∃ cs, walk next fuel path a = some cs := by
  intro fuel
  induction fuel with
  | zero =>
    intro path a h hfuel
    have := hn _ h
    simp only [List.length_cons] at this
    omega
  | succ fuel ih =>
    intro path a h hfuel
    have hchild : ∀ b ∈ next a, ∃ cs, walk next fuel (a :: path) b = some cs := by
      intro b hb
      apply ih _ _ (h.step hb)
      simp only [List.length_cons]
      omega
    choose! cs hcs using hchild
    refine ⟨_, walk_succ.mpr ⟨(next a).map cs, ?_, rfl⟩⟩
    rw [List.map_map]
    exact List.map_congr_left hcs

end Jyyos.PreorderWalk
