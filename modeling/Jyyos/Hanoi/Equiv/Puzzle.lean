import Jyyos.Hanoi.Equiv.Basic
import Mathlib.Logic.Function.Basic
import Mathlib.Order.Defs.LinearOrder
import Mathlib.Algebra.Ring.Int.Defs
import Mathlib.Tactic.Ring

/-!
# `hanoi` solves the puzzle

A position gives the disks on each peg, from the top down; the disks are ordered by size.  `move`
takes the disk on top of one peg to another and is refused when there is none or when the disk below
it would be smaller.

The induction has to be about any position in which the moved disks are smaller than all the others,
since the calls move the smaller disks about while the larger ones lie on all three pegs, and about
any three pegs, since the calls exchange their roles (`Solves`).
-/

namespace Jyyos.Hanoi

variable {κ δ : Type*}

/-- The disks on each peg, from the top down. -/
abbrev Disks (κ δ : Type*) := κ → List δ

/-- On every peg the disks get larger from the top down. -/
def Legal [LT δ] (p : Disks κ δ) : Prop := ∀ k, (p k).Pairwise (· < ·)

variable [DecidableEq κ] [LinearOrder δ]

/-- Move the disk on top of `src` to `dst`: there must be one, and the disk on top of `dst` must be
larger. -/
def move (p : Disks κ δ) : κ × κ → Option (Disks κ δ)
  | (src, dst) =>
    match p src with
    | [] => none
    | d :: rest =>
      if ∀ e ∈ (p dst).head?, d < e then
        some (Function.update (Function.update p src rest) dst (d :: p dst))
      else none

/-- Make the moves one after the other. -/
def play (p : Disks κ δ) (moves : List (κ × κ)) : Option (Disks κ δ) := moves.foldlM move p

theorem play_append (p : Disks κ δ) (moves₁ moves₂ : List (κ × κ)) :
    play p (moves₁ ++ moves₂) = (play p moves₁).bind fun q => play q moves₂ :=
  List.foldlM_append ..

theorem play_single (p : Disks κ δ) (m : κ × κ) : play p [m] = move p m := by
  simp [play]

/-- The move of a disk that is smaller than all on the other peg. -/
theorem move_eq {p : Disks κ δ} {src dst : κ} {d : δ} {rest : List δ} (hsrc : p src = d :: rest)
    (hdst : ∀ e ∈ p dst, d < e) : move p (src, dst) =
      some (Function.update (Function.update p src rest) dst (d :: p dst)) := by
  simp only [move, hsrc]
  rw [if_pos fun e he => hdst e (List.mem_of_mem_head? he)]

/-- The disks of `ds` are smaller than those of `es`. -/
def Smaller (ds es : List δ) : Prop := ∀ d ∈ ds, ∀ e ∈ es, d < e

omit [DecidableEq κ] in
theorem Smaller.cons {ds es : List δ} {e : δ} (he : ∀ d ∈ ds, d < e) (hes : Smaller ds es) :
    Smaller ds (e :: es) := by
  intro d hd x hx
  rcases List.mem_cons.mp hx with rfl | hx
  · exact he d hd
  · exact hes d hd x hx

/-- The moves take the disks `ds` from the top of `src` to the top of `dst`, wherever they are
smaller than the other disks on the three pegs. -/
def Solves (δ : Type*) [LinearOrder δ] (n : ℕ) (src dst via : κ) (moves : List (κ × κ)) : Prop :=
  src ≠ dst → src ≠ via → dst ≠ via → ∀ (p : Disks κ δ) (ds rest : List δ), ds.length = n →
    p src = ds ++ rest → ds.Pairwise (· < ·) →
    Smaller ds rest → Smaller ds (p dst) → Smaller ds (p via) →
    play p moves = some (Function.update (Function.update p src rest) dst (ds ++ p dst))

theorem solves_one (src dst via : κ) : Solves δ 1 src dst via [(src, dst)] := by
  intro _ _ _ p ds rest hlen hsrc _ _ hdst _
  obtain ⟨d, rfl⟩ := List.length_eq_one_iff.mp hlen
  rw [play_single]
  exact move_eq hsrc (hdst d List.mem_cons_self)

omit [LinearOrder δ] in
/-- What the three stages leave behind: only the pegs `src` and `dst` have changed. -/
theorem update_stages {src dst via : κ} (hsd : src ≠ dst) (hsv : src ≠ via) (hdv : dst ≠ via)
    {p p₁ p₂ : Disks κ δ} {xs ys zs rest ds : List δ}
    (hp₁ : p₁ = Function.update (Function.update p src xs) via ys)
    (hp₂ : p₂ = Function.update (Function.update p₁ src rest) dst zs) :
    Function.update (Function.update p₂ via (p via)) dst ds =
      Function.update (Function.update p src rest) dst ds := by
  ext1 k
  by_cases hkd : k = dst
  · simp [hkd]
  · by_cases hkv : k = via
    · simp [hkv, hdv.symm, hsv.symm]
    · by_cases hks : k = src
      · simp [hks, hsd, hsv, hp₂]
      · simp [hkd, hkv, hks, hp₂, hp₁]

theorem solves_more {n : ℕ} {src dst via : κ} {moves₁ moves₂ : List (κ × κ)}
    (h₁ : Solves δ (n + 1) src via dst moves₁) (h₂ : Solves δ (n + 1) via dst src moves₂) :
    Solves δ (n + 2) src dst via (moves₁ ++ [(src, dst)] ++ moves₂) := by
  intro hsd hsv hdv p ds rest hlen hsrc hsorted hrest hdst hvia
  -- the largest of the disks is at the bottom
  obtain ⟨ds, d, rfl⟩ : ∃ ds' d, ds = ds' ++ [d] :=
    ⟨ds.dropLast, ds.getLast (by rintro rfl; cases hlen), (List.dropLast_concat_getLast _).symm⟩
  have hlen' : ds.length = n + 1 := by simpa using hlen
  obtain ⟨hds, -, hlast⟩ := List.pairwise_append.mp hsorted
  have hltd : ∀ e ∈ ds, e < d := fun e he => hlast e he d List.mem_cons_self
  have hmem : ∀ e ∈ ds, e ∈ ds ++ [d] := fun e he => List.mem_append_left _ he
  have hvia' : Smaller ds (p via) := fun e he => hvia e (hmem e he)
  have hdst' : Smaller ds (p dst) := fun e he => hdst e (hmem e he)
  have hrest' : Smaller ds rest := fun e he => hrest e (hmem e he)
  -- the smaller disks go out of the way
  let p₁ := Function.update (Function.update p src (d :: rest)) via (ds ++ p via)
  have hplay₁ : play p moves₁ = some p₁ :=
    h₁ hsv hsd hdv.symm p ds (d :: rest) hlen' (by rw [hsrc, List.append_assoc]; rfl) hds
      (hrest'.cons hltd) hvia' hdst'
  -- the largest goes to its place
  have hsrc₁ : p₁ src = d :: rest := by simp [p₁, hsv]
  have hdst₁ : p₁ dst = p dst := by simp [p₁, hdv, hsd.symm]
  let p₂ := Function.update (Function.update p₁ src rest) dst (d :: p dst)
  have hmove : move p₁ (src, dst) = some p₂ := by
    rw [move_eq hsrc₁ (by rw [hdst₁]; exact hdst d (by simp)), hdst₁]
  -- and the smaller ones on top of it
  have hsrc₂ : p₂ src = rest := by simp [p₂, hsd]
  have hvia₂ : p₂ via = ds ++ p via := by simp [p₂, p₁, hdv.symm, hsv.symm]
  have hdst₂ : p₂ dst = d :: p dst := by simp [p₂]
  have hplay₂ : play p₂ moves₂ = some (Function.update (Function.update p₂ via (p via)) dst
      (ds ++ p₂ dst)) :=
    h₂ hdv.symm hsv.symm hsd.symm p₂ ds (p via) hlen' hvia₂ hds hvia'
      (by rw [hdst₂]; exact hdst'.cons hltd) (by rw [hsrc₂]; exact hrest')
  rw [play_append, play_append, hplay₁, Option.bind_some, play_single, hmove, Option.bind_some,
    hplay₂, hdst₂, List.append_assoc, update_stages hsd hsv hdv rfl rfl]
  rfl

omit [DecidableEq κ] in
/-- Twice `2 ^ (n + 1) - 1` moves and one more. -/
theorem length_more {n : ℕ} {moves₁ moves₂ : List (κ × κ)} (m : κ × κ)
    (h₁ : moves₁.length = 2 ^ (n + 1) - 1) (h₂ : moves₂.length = 2 ^ (n + 1) - 1) :
    (moves₁ ++ [m] ++ moves₂).length = 2 ^ (n + 2) - 1 := by
  have hpos : 1 ≤ 2 ^ (n + 1) := Nat.one_le_two_pow
  simp only [List.length_append, List.length_singleton, h₁, h₂, pow_succ 2 (n + 1)]
  omega

theorem exists_solution (δ : Type*) [LinearOrder δ] {n : ℕ} (hn : 1 ≤ n) (src dst via : κ) :
    ∃ moves, ∃ c : ℤ, hanoi n src dst via = some (moves, c) ∧ moves.length = 2 ^ n - 1 ∧
      c = 2 ^ n - 1 ∧ Solves δ n src dst via moves := by
  apply hanoi_induction (P := fun n src dst via moves c => moves.length = 2 ^ n - 1 ∧
    c = 2 ^ n - 1 ∧ Solves δ n src dst via moves)
  · exact fun src dst via => ⟨rfl, rfl, solves_one src dst via⟩
  · rintro n src dst via moves₁ moves₂ c1 c2 ⟨hlen₁, rfl, h₁⟩ ⟨hlen₂, rfl, h₂⟩
    refine ⟨length_more _ hlen₁ hlen₂, ?_, solves_more h₁ h₂⟩
    ring
  · exact hn

/-- **`hanoi` solves the puzzle.**  From every legal position with the `n` smallest disks on top of
`src`, all the moves can be made, and they lead to the position in which these disks are on top of
`dst` in their order and nothing else has changed.  There are `2 ^ n - 1` moves, which is the number
that is returned. -/
theorem hanoi_solves {n : ℕ} (hn : 1 ≤ n) {src dst via : κ} (hsd : src ≠ dst) (hsv : src ≠ via)
    (hdv : dst ≠ via) {p : Disks κ δ} (hp : Legal p) {ds rest : List δ} (hlen : ds.length = n)
    (hsrc : p src = ds ++ rest) (hsmall : ∀ k ≠ src, Smaller ds (p k)) :
    ∃ moves, hanoi n src dst via = some (moves, (2 ^ n - 1 : ℤ)) ∧ moves.length = 2 ^ n - 1 ∧
      play p moves = some (Function.update (Function.update p src rest) dst (ds ++ p dst)) := by
  obtain ⟨moves, c, hrec, hcount, rfl, hsolves⟩ := exists_solution δ hn src dst via
  refine ⟨moves, hrec, hcount, ?_⟩
  have hsorted := hp src
  rw [hsrc, List.pairwise_append] at hsorted
  exact hsolves hsd hsv hdv p ds rest hlen hsrc hsorted.1 hsorted.2.2 (hsmall dst hsd.symm)
    (hsmall via hsv.symm)

/-- Three pegs with larger disks on all of them. -/
def fiveDisks : Disks (Fin 3) ℕ
  | 0 => [1, 2, 5]
  | 1 => [4]
  | 2 => [3]

theorem hanoi_solves_fiveDisks : ∃ moves, hanoi 2 (0 : Fin 3) 1 2 = some (moves, (3 : ℤ)) ∧
    play fiveDisks moves =
      some (Function.update (Function.update fiveDisks 0 [5]) 1 [1, 2, 4]) := by
  obtain ⟨moves, hrec, -, hplay⟩ := hanoi_solves (δ := ℕ) (by decide : 1 ≤ 2)
    (by decide : (0 : Fin 3) ≠ 1) (by decide : (0 : Fin 3) ≠ 2) (by decide) (p := fiveDisks)
    (by unfold Legal; decide) (by decide : [1, 2].length = 2) rfl
    (by unfold Smaller; decide)
  exact ⟨moves, hrec, hplay⟩

end Jyyos.Hanoi
