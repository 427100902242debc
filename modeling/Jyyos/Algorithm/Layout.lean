import Mathlib.Algebra.BigOperators.Group.List.Basic
import Mathlib.Algebra.Ring.Nat

/-!
# Laying out bytes, labels and fields

What an assembler or a linker puts into an image is a list of pieces: bytes, fields of a fixed
width whose contents depend on addresses, and labels, which take no room.  The width makes the
positions independent of the contents: `labels` gives each label with its position, and `image`
the bytes once the contents of the fields are known.  Positions count from a start `p`.
-/

namespace Jyyos.Layout

/-- A piece: labels are of type `K`, descriptions of fields of type `R`. -/
inductive Piece (K R : Type*) where
  | label (k : K)
  | data (bs : List UInt8)
  | field (r : R)
deriving DecidableEq

variable {K R : Type*}

/-- The room that a piece takes, when fields are `w` bytes wide. -/
def Piece.size (w : ℕ) : Piece K R → ℕ
  | label _ => 0
  | data bs => bs.length
  | field _ => w

/-- The room that the pieces take. -/
def size (w : ℕ) (ps : List (Piece K R)) : ℕ := (ps.map (Piece.size w)).sum

/-- The labels with their positions, in order. -/
def labels (w : ℕ) : ℕ → List (Piece K R) → List (K × ℕ)
  | _, [] => []
  | p, .label k :: ps => (k, p) :: labels w p ps
  | p, .data bs :: ps => labels w (p + bs.length) ps
  | p, .field _ :: ps => labels w (p + w) ps

/-- The fields, in order. -/
def fields : List (Piece K R) → List R
  | [] => []
  | .field r :: ps => r :: fields ps
  | .label _ :: ps => fields ps
  | .data _ :: ps => fields ps

/-- The fields with their positions, in order. -/
def fieldsAt (w : ℕ) : ℕ → List (Piece K R) → List (R × ℕ)
  | _, [] => []
  | p, .label _ :: ps => fieldsAt w p ps
  | p, .data bs :: ps => fieldsAt w (p + bs.length) ps
  | p, .field r :: ps => (r, p) :: fieldsAt w (p + w) ps

/-- The bytes, when `enc p r` are the contents of the field `r` at position `p`. -/
def image (enc : ℕ → R → List UInt8) (w : ℕ) : ℕ → List (Piece K R) → List UInt8
  | _, [] => []
  | p, .label _ :: ps => image enc w p ps
  | p, .data bs :: ps => bs ++ image enc w (p + bs.length) ps
  | p, .field r :: ps => enc p r ++ image enc w (p + w) ps

@[simp]
theorem size_nil (w : ℕ) : size w ([] : List (Piece K R)) = 0 := rfl

@[simp]
theorem size_cons (w : ℕ) (a : Piece K R) (ps : List (Piece K R)) :
    size w (a :: ps) = a.size w + size w ps := by
  simp [size]

theorem mem_fields {r : R} {ps : List (Piece K R)} : r ∈ fields ps ↔ .field r ∈ ps := by
  induction ps with
  | nil => simp [fields]
  | cons a ps ih => cases a <;> simp [fields, ih]

theorem mem_of_mem_labels {w p o : ℕ} {k : K} {ps : List (Piece K R)}
    (h : (k, o) ∈ labels w p ps) : .label k ∈ ps := by
  induction ps generalizing p with
  | nil => simp [labels] at h
  | cons a ps ih =>
    cases a with
    | label k' =>
      rcases List.mem_cons.mp h with heq | h'
      · cases heq
        exact List.mem_cons_self
      · exact List.mem_cons_of_mem _ (ih h')
    | data bs => exact List.mem_cons_of_mem _ (ih h)
    | field r => exact List.mem_cons_of_mem _ (ih h)

/-- No label stands behind the end. -/
theorem le_of_mem_labels {w p o : ℕ} {k : K} {ps : List (Piece K R)}
    (h : (k, o) ∈ labels w p ps) : o ≤ p + size w ps := by
  induction ps generalizing p with
  | nil => simp [labels] at h
  | cons a ps ih =>
    cases a with
    | label k' =>
      rcases List.mem_cons.mp h with heq | h'
      · cases heq
        omega
      · simpa [Piece.size] using ih h'
    | data bs =>
      have := ih h
      simp only [size_cons, Piece.size]
      omega
    | field r =>
      have := ih h
      simp only [size_cons, Piece.size]
      omega

/-! ### One list of pieces after another -/

theorem size_append (w : ℕ) (ps qs : List (Piece K R)) :
    size w (ps ++ qs) = size w ps + size w qs := by
  simp [size]

theorem labels_append (w p : ℕ) (ps qs : List (Piece K R)) :
    labels w p (ps ++ qs) = labels w p ps ++ labels w (p + size w ps) qs := by
  induction ps generalizing p with
  | nil => rfl
  | cons a ps ih => cases a <;> simp [labels, ih, Piece.size, Nat.add_assoc]

theorem fieldsAt_append (w p : ℕ) (ps qs : List (Piece K R)) :
    fieldsAt w p (ps ++ qs) = fieldsAt w p ps ++ fieldsAt w (p + size w ps) qs := by
  induction ps generalizing p with
  | nil => rfl
  | cons a ps ih => cases a <;> simp [fieldsAt, ih, Piece.size, Nat.add_assoc]

theorem image_append (enc : ℕ → R → List UInt8) (w p : ℕ) (ps qs : List (Piece K R)) :
    image enc w p (ps ++ qs) = image enc w p ps ++ image enc w (p + size w ps) qs := by
  induction ps generalizing p with
  | nil => rfl
  | cons a ps ih => cases a <;> simp [image, ih, Piece.size, Nat.add_assoc]

/-- The image is as long as the room for it. -/
theorem length_image {enc : ℕ → R → List UInt8} {w : ℕ} (henc : ∀ p r, (enc p r).length = w)
    (p : ℕ) (ps : List (Piece K R)) : (image enc w p ps).length = size w ps := by
  induction ps generalizing p with
  | nil => rfl
  | cons a ps ih => cases a <;> simp [image, ih, Piece.size, henc]

/-! ### Moving pieces, and replacing descriptions -/

theorem labels_add (w p q : ℕ) (ps : List (Piece K R)) :
    labels w (p + q) ps = (labels w q ps).map fun e => (e.1, p + e.2) := by
  induction ps generalizing q with
  | nil => rfl
  | cons a ps ih => cases a <;> simp [labels, ← ih, Nat.add_assoc]

theorem fieldsAt_add (w p q : ℕ) (ps : List (Piece K R)) :
    fieldsAt w (p + q) ps = (fieldsAt w q ps).map fun e => (e.1, p + e.2) := by
  induction ps generalizing q with
  | nil => rfl
  | cons a ps ih => cases a <;> simp [fieldsAt, ← ih, Nat.add_assoc]

theorem image_add (enc : ℕ → R → List UInt8) (w p q : ℕ) (ps : List (Piece K R)) :
    image enc w (p + q) ps = image (fun o r => enc (p + o) r) w q ps := by
  induction ps generalizing q with
  | nil => rfl
  | cons a ps ih => cases a <;> simp [image, ← ih, Nat.add_assoc]

variable {R' : Type*}

/-- The piece with another description of its field. -/
def Piece.mapField (f : R → R') : Piece K R → Piece K R'
  | label k => .label k
  | data bs => .data bs
  | field r => .field (f r)

theorem size_mapField (f : R → R') (w : ℕ) (ps : List (Piece K R)) :
    size w (ps.map (Piece.mapField f)) = size w ps := by
  induction ps with
  | nil => rfl
  | cons a ps ih => cases a <;> simp [ih, Piece.mapField, Piece.size]

theorem labels_mapField (f : R → R') (w p : ℕ) (ps : List (Piece K R)) :
    labels w p (ps.map (Piece.mapField f)) = labels w p ps := by
  induction ps generalizing p with
  | nil => rfl
  | cons a ps ih => cases a <;> simp [labels, ih, Piece.mapField]

theorem fieldsAt_mapField (f : R → R') (w p : ℕ) (ps : List (Piece K R)) :
    fieldsAt w p (ps.map (Piece.mapField f)) = (fieldsAt w p ps).map fun e => (f e.1, e.2) := by
  induction ps generalizing p with
  | nil => rfl
  | cons a ps ih => cases a <;> simp [fieldsAt, ih, Piece.mapField]

theorem image_mapField (f : R → R') (enc : ℕ → R' → List UInt8) (w p : ℕ)
    (ps : List (Piece K R)) :
    image enc w p (ps.map (Piece.mapField f)) = image (fun o r => enc o (f r)) w p ps := by
  induction ps generalizing p with
  | nil => rfl
  | cons a ps ih => cases a <;> simp [image, ih, Piece.mapField]

/-! ### What stands where -/

theorem exists_mem_labels {k : K} {ps : List (Piece K R)} (h : .label k ∈ ps) (w p : ℕ) :
    ∃ o, (k, o) ∈ labels w p ps := by
  obtain ⟨qs, rs, rfl⟩ := List.append_of_mem h
  refine ⟨p + size w qs, ?_⟩
  rw [labels_append]
  exact List.mem_append_right _ List.mem_cons_self

theorem exists_mem_fieldsAt {r : R} {ps : List (Piece K R)} (h : .field r ∈ ps) (w p : ℕ) :
    ∃ o, (r, o) ∈ fieldsAt w p ps := by
  obtain ⟨qs, rs, rfl⟩ := List.append_of_mem h
  refine ⟨p + size w qs, ?_⟩
  rw [fieldsAt_append]
  exact List.mem_append_right _ List.mem_cons_self

theorem drop_add_append {α : Type*} {l₁ l₂ : List α} {n : ℕ} (h : l₁.length = n) (i : ℕ) :
    (l₁ ++ l₂).drop (n + i) = l₂.drop i := by
  rw [← h, List.drop_length_add_append]

/-- The bytes of a field are its contents. -/
theorem take_drop_image {enc : ℕ → R → List UInt8} {w : ℕ} (henc : ∀ p r, (enc p r).length = w)
    {ps : List (Piece K R)} {r : R} {p o : ℕ} (h : (r, o) ∈ fieldsAt w p ps) :
    ∃ q, o = p + q ∧ ((image enc w p ps).drop q).take w = enc o r := by
  induction ps generalizing p with
  | nil => simp [fieldsAt] at h
  | cons a ps ih =>
    cases a with
    | label k => exact ih h
    | data bs =>
      obtain ⟨q, rfl, hq⟩ := ih h
      refine ⟨bs.length + q, by omega, ?_⟩
      rw [image, drop_add_append rfl, hq]
    | field r' =>
      obtain heq | h := List.mem_cons.mp h
      · cases heq
        refine ⟨0, rfl, ?_⟩
        rw [image, List.drop_zero, ← henc o r, List.take_left]
      · obtain ⟨q, rfl, hq⟩ := ih h
        refine ⟨w + q, by omega, ?_⟩
        rw [image, drop_add_append (henc p r'), hq]

/-! ### Blocks -/

/-- Things of the lengths `len` one after the other, each with its position. -/
def starts {X : Type*} (len : X → ℕ) : ℕ → List X → List (X × ℕ)
  | _, [] => []
  | p, x :: xs => (x, p) :: starts len (p + len x) xs

section Blocks

variable {X : Type*} {f : X → List (Piece K R)} {len : X → ℕ} {w : ℕ}

theorem labels_flatMap {xs : List X} (hlen : ∀ x ∈ xs, size w (f x) = len x) (p : ℕ) :
    labels w p (xs.flatMap f) = (starts len p xs).flatMap fun b => labels w b.2 (f b.1) := by
  induction xs generalizing p with
  | nil => rfl
  | cons x xs ih =>
    rw [List.flatMap_cons, labels_append, hlen x List.mem_cons_self,
      ih fun y hy => hlen y (List.mem_cons_of_mem _ hy)]
    rfl

theorem fieldsAt_flatMap {xs : List X} (hlen : ∀ x ∈ xs, size w (f x) = len x) (p : ℕ) :
    fieldsAt w p (xs.flatMap f) = (starts len p xs).flatMap fun b => fieldsAt w b.2 (f b.1) := by
  induction xs generalizing p with
  | nil => rfl
  | cons x xs ih =>
    rw [List.flatMap_cons, fieldsAt_append, hlen x List.mem_cons_self,
      ih fun y hy => hlen y (List.mem_cons_of_mem _ hy)]
    rfl

theorem size_flatMap {xs : List X} (hlen : ∀ x ∈ xs, size w (f x) = len x) :
    size w (xs.flatMap f) = (xs.map len).sum := by
  induction xs with
  | nil => rfl
  | cons x xs ih =>
    rw [List.flatMap_cons, size_append, hlen x List.mem_cons_self,
      ih fun y hy => hlen y (List.mem_cons_of_mem _ hy), List.map_cons, List.sum_cons]

theorem fst_mem_of_mem_starts {xs : List X} {p : ℕ} {b : X × ℕ} (h : b ∈ starts len p xs) :
    b.1 ∈ xs := by
  induction xs generalizing p with
  | nil => simp [starts] at h
  | cons x xs ih =>
    obtain rfl | h := List.mem_cons.mp h
    · exact List.mem_cons_self
    · exact List.mem_cons_of_mem _ (ih h)

theorem exists_mem_starts {xs : List X} {x : X} (h : x ∈ xs) (p : ℕ) :
    ∃ o, (x, o) ∈ starts len p xs := by
  induction xs generalizing p with
  | nil => exact absurd h List.not_mem_nil
  | cons y xs ih =>
    obtain rfl | h := List.mem_cons.mp h
    · exact ⟨p, List.mem_cons_self⟩
    · obtain ⟨o, ho⟩ := ih h (p + len y)
      exact ⟨o, List.mem_cons_of_mem _ ho⟩

/-- The image of a block is a part of the image. -/
theorem take_drop_image_flatMap {enc : ℕ → R → List UInt8} (henc : ∀ p r, (enc p r).length = w)
    {xs : List X} (hlen : ∀ x ∈ xs, size w (f x) = len x) {p : ℕ} {b : X × ℕ}
    (h : b ∈ starts len p xs) :
    ∃ q, b.2 = p + q ∧
      ((image enc w p (xs.flatMap f)).drop q).take (len b.1) = image enc w b.2 (f b.1) := by
  induction xs generalizing p with
  | nil => simp [starts] at h
  | cons x xs ih =>
    have hx := hlen x List.mem_cons_self
    rw [List.flatMap_cons, image_append, hx]
    have hlength : (image enc w p (f x)).length = len x := (length_image henc p (f x)).trans hx
    obtain rfl | h := List.mem_cons.mp h
    · exact ⟨0, rfl, by rw [List.drop_zero, ← hlength, List.take_left]⟩
    · obtain ⟨q, hq, himage⟩ := ih (fun y hy => hlen y (List.mem_cons_of_mem _ hy)) h
      refine ⟨len x + q, by omega, ?_⟩
      rw [drop_add_append hlength, himage]

end Blocks

end Jyyos.Layout
