import Jyyos.Labyrinth.Equiv.Connected

/-!
# The connectivity check against the movement rule

With a single player on the map, the cells that he can walk to by successful calls of `movePlayer`
are the cells joined to his place through open cells: the search and the four branches of
`movePlayer` use different tests, but away from the player every open cell is empty, and a step
only exchanges him with an empty cell (`Solo.step`).  `isConnected_iff_walk` follows from
`isConnected_iff`.
-/

namespace Jyyos.Labyrinth

/-- Successive calls of `movePlayer`, all of which have to return `true`. -/
def walk (l : Labyrinth) (p : UInt8) (ds : List Direction) : Option Labyrinth :=
  ds.foldlM (fun l d => match l.movePlayer p d.name with
    | (true, l') => some l'
    | (false, _) => none) l

/-- Exactly one cell, `P`, holds a digit, and the digit is `p`. -/
structure Solo (l : Labyrinth) (p : UInt8) (P : Position) : Prop where
  player : isValidPlayer p = true
  inside : l.Inside P
  get_eq : l.get P = p
  unique : ∀ q, l.Inside q → isValidPlayer (l.get q) = true → q = P

namespace Solo

variable {l l' : Labyrinth} {p : UInt8} {P Q : Position}

theorem isOpen (h : Solo l p P) : l.Open P :=
  ⟨h.inside, by rw [h.get_eq]; exact isOpen_of_player h.player⟩

theorem findPlayer_eq (h : Solo l p P) : l.findPlayer p = P :=
  findCell_eq_of_unique h.inside h.get_eq
    fun q hq hget => h.unique q hq (by rw [hget]; exact h.player)

/-- Away from the player an open cell is empty. -/
theorem empty_of_open (h : Solo l p P) (hQ : l.Open Q) (hne : Q ≠ P) : l.get Q = dot := by
  have hopen := hQ.2
  unfold Labyrinth.isOpen at hopen
  rw [Bool.or_eq_true, beq_iff_eq] at hopen
  rcases hopen with hdot | hplayer
  · exact hdot
  · exact absurd (h.unique Q hQ.1 hplayer) hne

/-- The single player stays single when he changes places with an empty cell. -/
theorem of_moved (h : Solo l p P) (hl : l.Fits) (hQ : l.Inside Q) (hdot : l.get Q = dot) :
    Solo ((l.put Q p).put P dot) p Q := by
  have hin : ∀ q, ((l.put Q p).put P dot).Inside q ↔ l.Inside q := fun q => by
    rw [inside_put ((inside_put hQ hl p).mpr h.inside) (fits_put hQ hl p), inside_put hQ hl]
  refine ⟨h.player, (hin Q).mpr hQ, ?_, ?_⟩
  · rw [get_moved hl h.inside hQ h.get_eq hdot hQ, Equiv.swap_apply_right, h.get_eq]
  · intro q hq hplayer
    have hq' : l.Inside q := (hin q).mp hq
    rw [get_moved hl h.inside hQ h.get_eq hdot hq'] at hplayer
    have hswap : l.Inside (Equiv.swap P Q q) := by
      by_cases hqP : q = P
      · rw [hqP, Equiv.swap_apply_left]; exact hQ
      · by_cases hqQ : q = Q
        · rw [hqQ, Equiv.swap_apply_right]; exact h.inside
        · rw [Equiv.swap_apply_of_ne_of_ne hqP hqQ]; exact hq'
    have hval := h.unique _ hswap hplayer
    rw [Equiv.swap_apply_eq_iff, Equiv.swap_apply_left] at hval
    exact hval

/-- **A step of the single player**: `movePlayer` succeeds towards an open cell, and then the
player stands there and the open cells are the same. -/
theorem step (h : Solo l p P) (hl : l.Fits) (d : Direction) (hopen : l.Open (P.shift d)) :
    ∃ l', l.movePlayer p d.name = (true, l') ∧ Solo l' p (P.shift d) ∧ l'.Fits ∧
      ∀ q, l'.Open q ↔ l.Open q := by
  have hdot := h.empty_of_open hopen (P.shift_ne d)
  have hcall : l.movePlayer p d.name = (true, (l.put (P.shift d) p).put P dot) := by
    have hin : l.Inside (l.findPlayer p) := by rw [h.findPlayer_eq]; exact h.inside
    rw [movePlayer_direction hin, h.findPlayer_eq, stepTo_shift,
      if_pos ((isEmptySpace_iff l _).mpr ⟨hopen.1, hdot⟩)]
  have hres := movePlayer_cases hcall
  exact ⟨_, hcall, h.of_moved hl hopen.1 hdot, hres.fits hl, hres.open_iff hl h.player⟩

/-- A successful call is a step to an open neighbour. -/
theorem open_of_movePlayer (h : Solo l p P) {d : Direction}
    (hcall : l.movePlayer p d.name = (true, l')) : l.Open (P.shift d) := by
  have hin : l.Inside (l.findPlayer p) := by rw [h.findPlayer_eq]; exact h.inside
  rw [movePlayer_direction hin, h.findPlayer_eq, stepTo_shift] at hcall
  split_ifs at hcall with hempty
  · obtain ⟨hQ, hdot⟩ := (isEmptySpace_iff l _).mp hempty
    exact ⟨hQ, by rw [hdot]; exact isOpen_dot⟩
  · exact absurd (Prod.mk.inj hcall).1 Bool.false_ne_true

end Solo

/-- The player can walk to every cell joined to his place. -/
theorem exists_walk_of_joined {l : Labyrinth} (hl : l.Fits) {p : UInt8} {P Q : Position}
    (h : Solo l p P) (hj : l.Joined P Q) :
    ∃ ds l', l.walk p ds = some l' ∧ Solo l' p Q ∧ l'.Fits ∧ ∀ q, l'.Open q ↔ l.Open q := by
  induction hj with
  | refl => exact ⟨[], l, rfl, h, hl, fun _ => Iff.rfl⟩
  | tail _ hstep ih =>
    obtain ⟨ds, l₁, hwalk, hsolo, hfits, hopen⟩ := ih
    obtain ⟨d, rfl, hd⟩ := hstep
    obtain ⟨l₂, hcall, hsolo₂, hfits₂, hopen₂⟩ := hsolo.step hfits d ((hopen _).mpr hd)
    refine ⟨ds ++ [d], l₂, ?_, hsolo₂, hfits₂, fun q => (hopen₂ q).trans (hopen q)⟩
    unfold walk at hwalk ⊢
    rw [List.foldlM_append, hwalk]
    simp only [List.foldlM_cons, List.foldlM_nil, Option.bind_eq_bind, Option.bind_some, hcall]
    rfl

/-- A walk of the player ends on a cell joined to his place. -/
theorem joined_of_walk {p : UInt8} : ∀ (ds : List Direction) {l l' : Labyrinth} {P : Position},
    l.Fits → Solo l p P → l.walk p ds = some l' → l.Joined P (l'.findPlayer p) := by
  intro ds
  induction ds with
  | nil =>
    intro l l' P _ h hwalk
    obtain rfl := Option.some.inj hwalk
    rw [h.findPlayer_eq]
    exact Relation.ReflTransGen.refl
  | cons d ds ih =>
    intro l l' P hl h hwalk
    unfold walk at hwalk
    rw [List.foldlM_cons] at hwalk
    cases hcall : l.movePlayer p d.name with
    | mk ok l₁ =>
      cases ok with
      | false => rw [hcall] at hwalk; exact absurd hwalk (by simp)
      | true =>
        -- a move that succeeds goes to an open cell, and the open cells stay the same
        have hopen := h.open_of_movePlayer hcall
        obtain ⟨l₂, hcall₂, hsolo₂, hfits₂, hopen₂⟩ := h.step hl d hopen
        obtain rfl : l₁ = l₂ := (Prod.mk.inj (hcall.symm.trans hcall₂)).2
        rw [hcall] at hwalk
        have hrest := ih hfits₂ hsolo₂ hwalk
        rw [joined_congr hopen₂] at hrest
        exact Relation.ReflTransGen.head ⟨d, rfl, hopen⟩ hrest

/-- **The connectivity check and the movement rule agree**: with exactly one digit on the map,
`isConnected` holds iff the player can walk to every empty cell. -/
theorem isConnected_iff_walk {l : Labyrinth} (hl : l.Fits) {p : UInt8} {P : Position}
    (h : Solo l p P) :
    l.isConnected = true ↔ ∀ q, l.Inside q → l.get q = dot →
      ∃ ds l', l.walk p ds = some l' ∧ l'.findPlayer p = q := by
  rw [isConnected_iff hl]
  constructor
  · rintro (hnone | hall) q hq hdot
    · exact absurd hdot (hnone q hq)
    · have hqopen : l.Open q := ⟨hq, by rw [hdot]; exact isOpen_dot⟩
      obtain ⟨ds, l', hwalk, hsolo, -⟩ := exists_walk_of_joined hl h (hall P q h.isOpen hqopen)
      exact ⟨ds, l', hwalk, hsolo.findPlayer_eq⟩
  · intro hwalks
    -- every open cell is joined to the player's place
    have hjoin : ∀ q, l.Open q → l.Joined P q := by
      intro q hq
      by_cases hqP : q = P
      · exact hqP ▸ Relation.ReflTransGen.refl
      · obtain ⟨ds, l', hwalk, hfind⟩ := hwalks q hq.1 (h.empty_of_open hq hqP)
        exact hfind ▸ joined_of_walk ds hl h hwalk
    exact Or.inr fun a b ha hb => ((hjoin a ha).symm h.isOpen).trans (hjoin b hb)

/-- A one-row map `1.` with the player `1` on its left. -/
def oneDot : Labyrinth where
  map o := if o = 0 then '1'.toUInt8 else dot
  rows := 1
  cols := 2

theorem oneDot_solo : Solo oneDot '1'.toUInt8 ⟨0, 0⟩ where
  player := by decide
  inside := ⟨by decide, by decide, by decide, by decide⟩
  get_eq := by decide
  unique q hq hplayer := by
    obtain ⟨r, c⟩ := q
    obtain ⟨h1, h2, h3, h4⟩ := hq
    simp only [oneDot] at h1 h2 h3 h4
    obtain rfl : r = 0 := by omega
    rcases (by omega : c = 0 ∨ c = 1) with rfl | rfl
    · rfl
    · exact absurd hplayer (by decide)

theorem oneDot_isConnected_iff_walk :
    oneDot.isConnected = true ∧ (oneDot.isConnected = true ↔
      ∀ q, oneDot.Inside q → oneDot.get q = dot →
        ∃ ds l', oneDot.walk '1'.toUInt8 ds = some l' ∧ l'.findPlayer '1'.toUInt8 = q) :=
  ⟨by decide, isConnected_iff_walk ⟨by decide, by decide⟩ oneDot_solo⟩

end Jyyos.Labyrinth
