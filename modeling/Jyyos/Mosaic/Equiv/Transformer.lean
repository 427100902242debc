import Jyyos.Mosaic.Transformer
import Mathlib.Logic.Relation
import Mathlib.Tactic.Common

/-!
# Which system calls are rewritten

`rewrite` is what the pass is to make of a tree: every call of a system call, wherever it stands,
becomes a yield of its name and its rewritten positional arguments, and every other node keeps its
place with rewritten children.  The yield has no place for the callee and the keywords of the call,
so a system call in a keyword of another one is lost; `BecomeYields` asks that this does not happen.

`visit` differs from `rewrite` in one point.  `visit_Call` returns without visiting the children of
the call, so a system call inside an argument, a callee or a keyword of another call stays as it is
or is lost.

`visit_exact_iff`: the pass is the full rewrite, leaves no system call behind and loses none,
exactly on the trees where no call that it visits has a system call inside it (`Clean`).

Both functions are read through the children of a node (`visit_eq_mapChildren`,
`rewrite_eq_mapChildren`), so that the proofs are inductions over nodes alone
(`Node.children_induction`).
-/

namespace Jyyos.Mosaic.Ast

variable {K A : Type}

/-! ### The children of a node -/

def Item.nodes : Item K A → List (Node K A)
  | .node n => [n]
  | .atom _ => []

def Field.nodes : Field K A → List (Node K A)
  | .node n => [n]
  | .atom _ => []
  | .list items => items.flatMap Item.nodes

def Item.map (f : Node K A → Node K A) : Item K A → Item K A
  | .node n => .node (f n)
  | .atom a => .atom a

def Field.map (f : Node K A → Node K A) : Field K A → Field K A
  | .node n => .node (f n)
  | .atom a => .atom a
  | .list items => .list (items.map (Item.map f))

namespace Node

/-- The nodes directly below a node. -/
def children : Node K A → List (Node K A)
  | .call func args keywords => func :: (args ++ keywords)
  | .name _ _ => []
  | .constant _ => []
  | .tuple elts _ => elts
  | .yield value => value.toList
  | .other _ fields => fields.flatMap Field.nodes

/-- The node with a function applied to its children. -/
def mapChildren (f : Node K A → Node K A) : Node K A → Node K A
  | .call func args keywords => .call (f func) (args.map f) (keywords.map f)
  | .name id ctx => .name id ctx
  | .constant value => .constant value
  | .tuple elts ctx => .tuple (elts.map f) ctx
  | .yield value => .yield (value.map f)
  | .other cls fields => .other cls (fields.map (Field.map f))

theorem sizeOf_lt_of_mem_children {n m : Node K A} (h : m ∈ n.children) : sizeOf m < sizeOf n := by
  cases n with
  | call func args keywords =>
    simp only [children, List.mem_cons, List.mem_append] at h
    simp only [Node.call.sizeOf_spec]
    rcases h with rfl | h | h
    · omega
    · have := List.sizeOf_lt_of_mem h
      omega
    · have := List.sizeOf_lt_of_mem h
      omega
  | name id ctx => cases h
  | constant value => cases h
  | tuple elts ctx =>
    have := List.sizeOf_lt_of_mem (show m ∈ elts from h)
    simp only [Node.tuple.sizeOf_spec]
    omega
  | yield value =>
    obtain rfl : value = some m := by simpa [children] using h
    simp only [Node.yield.sizeOf_spec, Option.some.sizeOf_spec]
    omega
  | other cls fields =>
    obtain ⟨field, hfield, hm⟩ := List.mem_flatMap.mp h
    have hlt := List.sizeOf_lt_of_mem hfield
    simp only [Node.other.sizeOf_spec]
    cases field with
    | node k =>
      obtain rfl := List.mem_singleton.mp hm
      simp only [Field.node.sizeOf_spec] at hlt
      omega
    | atom a => cases hm
    | list items =>
      obtain ⟨item, hitem, hm⟩ := List.mem_flatMap.mp hm
      have hlt' := List.sizeOf_lt_of_mem hitem
      simp only [Field.list.sizeOf_spec] at hlt
      cases item with
      | node k =>
        obtain rfl := List.mem_singleton.mp hm
        simp only [Item.node.sizeOf_spec] at hlt'
        omega
      | atom a => cases hm

/-- **Induction over trees**: what holds of a node when it holds of its children holds of all. -/
theorem children_induction {P : Node K A → Prop} (h : ∀ n, (∀ m ∈ n.children, P m) → P n)
    (n : Node K A) : P n := by
  induction hsize : sizeOf n using Nat.strong_induction_on generalizing n with
  | _ size ih =>
    subst hsize
    exact h n fun m hm => ih (sizeOf m) (sizeOf_lt_of_mem_children hm) m rfl

theorem mapChildren_congr {f g : Node K A → Node K A} {n : Node K A}
    (h : ∀ m ∈ n.children, f m = g m) : n.mapChildren f = n.mapChildren g := by
  cases n with
  | call func args keywords =>
    simp only [children, List.mem_cons, List.mem_append] at h
    rw [mapChildren, mapChildren, h func (Or.inl rfl),
      List.map_congr_left fun m hm => h m (Or.inr (Or.inl hm)),
      List.map_congr_left fun m hm => h m (Or.inr (Or.inr hm))]
  | name id ctx => rfl
  | constant value => rfl
  | tuple elts ctx =>
    have helts : elts.map f = elts.map g := List.map_congr_left h
    rw [mapChildren, mapChildren, helts]
  | yield value =>
    cases value with
    | none => rfl
    | some v =>
      have hv : f v = g v := h v (by simp [children])
      rw [mapChildren, mapChildren, Option.map_some, Option.map_some, hv]
  | other cls fields =>
    rw [mapChildren, mapChildren]
    congr 1
    refine List.map_congr_left fun field hfield => ?_
    have hin : ∀ m ∈ field.nodes, f m = g m :=
      fun m hm => h m (List.mem_flatMap.mpr ⟨field, hfield, hm⟩)
    cases field with
    | node k => rw [Field.map, Field.map, hin k (List.mem_singleton_self k)]
    | atom a => rfl
    | list items =>
      rw [Field.map, Field.map]
      congr 1
      refine List.map_congr_left fun item hitem => ?_
      cases item with
      | node k =>
        rw [Item.map, Item.map, hin k (List.mem_flatMap.mpr ⟨_, hitem, List.mem_singleton_self k⟩)]
      | atom a => rfl

theorem mapChildren_id (n : Node K A) : n.mapChildren id = n := by
  have hitem : (Item.map id : Item K A → Item K A) = id := by
    funext item
    cases item <;> rfl
  have hfield : (Field.map id : Field K A → Field K A) = id := by
    funext field
    cases field <;> simp [Field.map, hitem]
  cases n <;> simp [mapChildren, hfield]

theorem children_mapChildren (f : Node K A → Node K A) (n : Node K A) :
    (n.mapChildren f).children = n.children.map f := by
  have hitem : ∀ item : Item K A, (item.map f).nodes = item.nodes.map f := by
    intro item
    cases item <;> rfl
  have hfield : ∀ field : Field K A, (field.map f).nodes = field.nodes.map f := by
    intro field
    cases field with
    | node k => rfl
    | atom a => rfl
    | list items => simp [Field.map, Field.nodes, List.flatMap_map, List.map_flatMap, hitem]
  cases n with
  | call func args keywords => simp [mapChildren, children]
  | name id ctx => rfl
  | constant value => rfl
  | tuple elts ctx => rfl
  | yield value => cases value <;> rfl
  | other cls fields => simp [mapChildren, children, List.flatMap_map, List.map_flatMap, hfield]

/-- The node is a call. -/
def isCall : Node K A → Bool
  | .call _ _ _ => true
  | _ => false

/-- The node is a call of a bare name in `SYSCALLS`. -/
def isSyscall : Node K A → Bool
  | .call func _ _ => func.syscall?.isSome
  | _ => false

/-- `n` stands somewhere in the tree `t`. -/
def Within (t n : Node K A) : Prop := Relation.ReflTransGen (fun m k => k ∈ m.children) t n

/-- No system call stands in the tree. -/
def NoSyscall (t : Node K A) : Prop := ∀ n, Within t n → n.isSyscall = false

theorem noSyscall_iff {n : Node K A} :
    n.NoSyscall ↔ n.isSyscall = false ∧ ∀ m ∈ n.children, m.NoSyscall := by
  constructor
  · exact fun h => ⟨h n .refl, fun m hm k hk => h k (.head hm hk)⟩
  · rintro ⟨hn, hchildren⟩ k hk
    rcases hk.cases_head with rfl | ⟨m, hm, hmk⟩
    · exact hn
    · exact hchildren m hm k hmk

/-- `n` is a node that the pass visits: there is no call above it in the tree `t`. -/
def Visits (t n : Node K A) : Prop :=
  Relation.ReflTransGen (fun m k => m.isCall = false ∧ k ∈ m.children) t n

/-- No call that the pass visits has a system call inside it. -/
def Clean (t : Node K A) : Prop :=
  ∀ n, Visits t n → n.isCall = true → ∀ m ∈ n.children, m.NoSyscall

theorem clean_iff {n : Node K A} (hn : n.isCall = false) :
    n.Clean ↔ ∀ m ∈ n.children, m.Clean := by
  constructor
  · exact fun h m hm k hv => h k (.head ⟨hn, hm⟩ hv)
  · intro h k hv hk
    rcases hv.cases_head with rfl | ⟨m, ⟨-, hm⟩, hv⟩
    · exact absurd (hn.symm.trans hk) Bool.false_ne_true
    · exact h m hm k hv hk

theorem clean_iff_of_isCall {n : Node K A} (hn : n.isCall = true) :
    n.Clean ↔ ∀ m ∈ n.children, m.NoSyscall := by
  constructor
  · exact fun h => h n .refl hn
  · intro h k hv _
    rcases hv.cases_head with rfl | ⟨m, ⟨hcall, -⟩, -⟩
    · exact h
    · exact absurd (hcall.symm.trans hn) Bool.false_ne_true

/-- A bare name has nothing inside. -/
theorem noSyscall_of_syscall? {n : Node K A} {id : Text} (h : n.syscall? = some id) :
    n.NoSyscall := by
  cases n with
  | name id' ctx => exact noSyscall_iff.mpr ⟨rfl, fun m hm => absurd hm List.not_mem_nil⟩
  | call | constant | tuple | yield | other => cases h

/-! ### Positions -/

/-- The node at a position, which is given by the numbers of the children on the way. -/
def nodeAt : Node K A → List ℕ → Option (Node K A)
  | n, [] => some n
  | n, i :: pos => n.children[i]?.bind fun m => m.nodeAt pos

theorem nodeAt_cons {t n : Node K A} {i : ℕ} {pos : List ℕ} :
    t.nodeAt (i :: pos) = some n ↔ ∃ m, t.children[i]? = some m ∧ m.nodeAt pos = some n :=
  Option.bind_eq_some_iff

theorem within_iff {t n : Node K A} : Within t n ↔ ∃ pos, t.nodeAt pos = some n := by
  constructor
  · intro h
    induction h using Relation.ReflTransGen.head_induction_on with
    | refl => exact ⟨[], rfl⟩
    | head hm _ ih =>
      obtain ⟨i, hi⟩ := List.mem_iff_getElem?.mp hm
      obtain ⟨pos, hpos⟩ := ih
      exact ⟨i :: pos, nodeAt_cons.mpr ⟨_, hi, hpos⟩⟩
  · rintro ⟨pos, hpos⟩
    induction pos generalizing t with
    | nil =>
      cases hpos
      exact .refl
    | cons i pos ih =>
      obtain ⟨m, hm, hn⟩ := nodeAt_cons.mp hpos
      exact .head (List.mem_of_getElem? hm) (ih hn)

/-- The positional arguments of a call. -/
def args : Node K A → List (Node K A)
  | .call _ args _ => args
  | _ => []

/-- Where a node at a position is after the rewrite.  The arguments of a system call are in the
tuple that is the second element of the tuple of its yield; its callee and its keywords have no
place. -/
def place : Node K A → List ℕ → Option (List ℕ)
  | _, [] => some []
  | n, i :: pos => n.children[i]?.bind fun m => (m.place pos).bind fun rest =>
      if n.isSyscall then
        if 1 ≤ i ∧ i ≤ n.args.length then some (0 :: 1 :: (i - 1) :: rest) else none
      else some (i :: rest)

theorem place_cons {t : Node K A} {i : ℕ} {pos dest : List ℕ} :
    t.place (i :: pos) = some dest ↔ ∃ m rest, t.children[i]? = some m ∧ m.place pos = some rest ∧
      (if t.isSyscall then
        if 1 ≤ i ∧ i ≤ t.args.length then some (0 :: 1 :: (i - 1) :: rest) else none
      else some (i :: rest)) = some dest := by
  rw [place, Option.bind_eq_some_iff]
  simp only [Option.bind_eq_some_iff]
  constructor
  · rintro ⟨m, hm, rest, hrest, hdest⟩
    exact ⟨m, rest, hm, hrest, hdest⟩
  · rintro ⟨m, rest, hm, hrest, hdest⟩
    exact ⟨m, hm, rest, hrest, hdest⟩

/-- Every system call has a place. -/
def Kept (t : Node K A) : Prop :=
  ∀ pos n, t.nodeAt pos = some n → n.isSyscall = true → ∃ dest, t.place pos = some dest

theorem isSyscall_eq_false {n : Node K A} (hn : n.isCall = false) : n.isSyscall = false := by
  cases n with
  | call => cases hn
  | name | constant | tuple | yield | other => rfl

theorem kept_of_clean {t : Node K A} (h : t.Clean) : t.Kept := by
  intro pos
  induction pos generalizing t with
  | nil => exact fun n _ _ => ⟨[], rfl⟩
  | cons i pos ih =>
    intro n hn hsys
    obtain ⟨m, hm, hn⟩ := nodeAt_cons.mp hn
    have hmem := List.mem_of_getElem? hm
    cases hcall : t.isCall with
    | true =>
      -- there is no system call inside a call
      have hnone := (clean_iff_of_isCall hcall).mp h m hmem n (within_iff.mpr ⟨pos, hn⟩)
      exact absurd (hnone.symm.trans hsys) Bool.false_ne_true
    | false =>
      obtain ⟨rest, hrest⟩ := ih ((clean_iff hcall).mp h m hmem) n hn hsys
      refine ⟨i :: rest, place_cons.mpr ⟨m, rest, hm, hrest, ?_⟩⟩
      rw [isSyscall_eq_false hcall]
      rfl

/-- A child of a node that is no call. -/
theorem Kept.child {t m : Node K A} (h : t.Kept) (hm : m ∈ t.children) : m.Kept := by
  intro pos n hn hsys
  obtain ⟨i, hi⟩ := List.mem_iff_getElem?.mp hm
  obtain ⟨dest, hdest⟩ := h (i :: pos) n (nodeAt_cons.mpr ⟨m, hi, hn⟩) hsys
  obtain ⟨m', rest, hm', hrest, -⟩ := place_cons.mp hdest
  rw [hi] at hm'
  cases hm'
  exact ⟨rest, hrest⟩

/-- The keywords of a system call have no place. -/
theorem Kept.keyword {func keyword : Node K A} {args keywords : List (Node K A)} {id : Text}
    (h : (Node.call func args keywords).Kept) (hid : func.syscall? = some id)
    (hmem : keyword ∈ keywords) : keyword.NoSyscall := by
  intro n hn
  by_contra hsys
  rw [Bool.not_eq_false] at hsys
  obtain ⟨pos, hpos⟩ := within_iff.mp hn
  obtain ⟨j, hj⟩ := List.mem_iff_getElem?.mp hmem
  have hchild : (Node.call func args keywords).children[args.length + j + 1]? = some keyword := by
    rw [children, List.getElem?_cons_succ, List.getElem?_append_right (Nat.le_add_right ..),
      Nat.add_sub_cancel_left, hj]
  obtain ⟨dest, hdest⟩ := h _ n (nodeAt_cons.mpr ⟨keyword, hchild, hpos⟩) hsys
  obtain ⟨m, rest, -, -, hplace⟩ := place_cons.mp hdest
  have hcall : (Node.call func args keywords).isSyscall = true := by
    rw [isSyscall, hid]
    rfl
  have hlate : ¬ (1 ≤ args.length + j + 1 ∧
      args.length + j + 1 ≤ (Node.call func args keywords).args.length) := by
    show ¬ (_ ∧ _ ≤ args.length)
    omega
  rw [if_pos hcall, if_neg hlate] at hplace
  cases hplace

end Node

/-! ### The full rewrite -/

mutual

/-- Every system call becomes a yield. -/
def rewrite : Node K A → Node K A
  | .call func args keywords =>
    match func.syscall? with
    | some id => yieldOf id (rewriteNodes args)
    | none => .call (rewrite func) (rewriteNodes args) (rewriteNodes keywords)
  | .name id ctx => .name id ctx
  | .constant value => .constant value
  | .tuple elts ctx => .tuple (rewriteNodes elts) ctx
  | .yield none => .yield none
  | .yield (some value) => .yield (some (rewrite value))
  | .other cls fields => .other cls (rewriteFields fields)

def rewriteNodes : List (Node K A) → List (Node K A)
  | [] => []
  | n :: ns => rewrite n :: rewriteNodes ns

def rewriteFields : List (Field K A) → List (Field K A)
  | [] => []
  | .node n :: fields => .node (rewrite n) :: rewriteFields fields
  | .atom a :: fields => .atom a :: rewriteFields fields
  | .list items :: fields => .list (rewriteItems items) :: rewriteFields fields

def rewriteItems : List (Item K A) → List (Item K A)
  | [] => []
  | .node n :: items => .node (rewrite n) :: rewriteItems items
  | .atom a :: items => .atom a :: rewriteItems items

end

theorem rewriteNodes_eq (ns : List (Node K A)) : rewriteNodes ns = ns.map rewrite := by
  induction ns with
  | nil => rfl
  | cons n ns ih => rw [rewriteNodes, ih, List.map_cons]

theorem rewriteItems_eq (items : List (Item K A)) :
    rewriteItems items = items.map (Item.map rewrite) := by
  induction items with
  | nil => rfl
  | cons item items ih =>
    cases item <;> rw [rewriteItems, ih, List.map_cons, Item.map]

theorem rewriteFields_eq (fields : List (Field K A)) :
    rewriteFields fields = fields.map (Field.map rewrite) := by
  induction fields with
  | nil => rfl
  | cons field fields ih =>
    cases field with
    | node n => rw [rewriteFields, ih, List.map_cons, Field.map]
    | atom a => rw [rewriteFields, ih, List.map_cons, Field.map]
    | list items => rw [rewriteFields, ih, List.map_cons, Field.map, rewriteItems_eq]

theorem rewrite_syscall {func : Node K A} {id : Text} (h : func.syscall? = some id)
    (args keywords : List (Node K A)) :
    rewrite (.call func args keywords) = yieldOf id (args.map rewrite) := by
  rw [rewrite, h, rewriteNodes_eq]

/-- Everything but a system call keeps its place. -/
theorem rewrite_eq_mapChildren {n : Node K A} (hn : n.isSyscall = false) :
    rewrite n = n.mapChildren rewrite := by
  cases n with
  | call func args keywords =>
    have hnone : func.syscall? = none := by
      rw [← Option.not_isSome_iff_eq_none, Bool.not_eq_true]
      exact hn
    rw [rewrite, hnone, Node.mapChildren, rewriteNodes_eq, rewriteNodes_eq]
  | name id ctx => rw [rewrite, Node.mapChildren]
  | constant value => rw [rewrite, Node.mapChildren]
  | tuple elts ctx => rw [rewrite, Node.mapChildren, rewriteNodes_eq]
  | yield value => cases value <;> rw [rewrite, Node.mapChildren] <;> rfl
  | other cls fields => rw [rewrite, Node.mapChildren, rewriteFields_eq]

theorem rewrite_eq_self {n : Node K A} : n.NoSyscall → rewrite n = n := by
  induction n using Node.children_induction with
  | _ n ih =>
    intro h
    obtain ⟨hn, hchildren⟩ := Node.noSyscall_iff.mp h
    rw [rewrite_eq_mapChildren hn, Node.mapChildren_congr fun m hm => ih m hm (hchildren m hm)]
    exact n.mapChildren_id

theorem map_rewrite_eq_self {ns : List (Node K A)} (h : ∀ n ∈ ns, n.NoSyscall) :
    ns.map rewrite = ns := by
  rw [List.map_congr_left fun n hn => rewrite_eq_self (h n hn), List.map_id']

/-- The yield has no system call but those of its arguments. -/
theorem noSyscall_yieldOf_iff {id : Text} {args : List (Node K A)} :
    (yieldOf id args).NoSyscall ↔ ∀ arg ∈ args, arg.NoSyscall := by
  have hconst : (Node.constant (.str id) : Node K A).NoSyscall :=
    Node.noSyscall_iff.mpr ⟨rfl, nofun⟩
  rw [yieldOf, Node.noSyscall_iff]
  simp only [Node.isSyscall, Node.children, Option.toList_some, List.mem_singleton, forall_eq,
    true_and]
  rw [Node.noSyscall_iff]
  simp only [Node.isSyscall, Node.children, List.mem_cons, List.not_mem_nil, or_false,
    forall_eq_or_imp, forall_eq, true_and, hconst]
  rw [Node.noSyscall_iff]
  simp only [Node.isSyscall, Node.children, true_and]

/-- The rewrite makes no names. -/
theorem syscall?_rewrite (n : Node K A) : (rewrite n).syscall? = n.syscall? := by
  cases n with
  | call func args keywords =>
    rw [rewrite]
    cases func.syscall? <;> rfl
  | name id ctx => rw [rewrite]
  | constant value => rw [rewrite]
  | tuple elts ctx =>
    rw [rewrite]
    rfl
  | yield value =>
    cases value <;> rw [rewrite]
    rfl
  | other cls fields =>
    rw [rewrite]
    rfl

/-- **No system call is left by the full rewrite.** -/
theorem noSyscall_rewrite (n : Node K A) : (rewrite n).NoSyscall := by
  induction n using Node.children_induction with
  | _ n ih =>
    cases hn : n.isSyscall with
    | true =>
      obtain ⟨func, args, keywords, id, rfl, hid⟩ :
          ∃ func args keywords id, n = .call func args keywords ∧ func.syscall? = some id := by
        cases n with
        | call func args keywords =>
          obtain ⟨id, hid⟩ := Option.isSome_iff_exists.mp hn
          exact ⟨func, args, keywords, id, rfl, hid⟩
        | name | constant | tuple | yield | other => cases hn
      rw [rewrite_syscall hid, noSyscall_yieldOf_iff]
      intro arg harg
      obtain ⟨m, hm, rfl⟩ := List.mem_map.mp harg
      exact ih m (by simp [Node.children, hm])
    | false =>
      rw [rewrite_eq_mapChildren hn, Node.noSyscall_iff, Node.children_mapChildren]
      refine ⟨?_, fun k hk => ?_⟩
      · cases n with
        | call func args keywords =>
          rw [Node.mapChildren, Node.isSyscall, syscall?_rewrite]
          exact hn
        | name | constant | tuple | yield | other => rfl
      · obtain ⟨m, hm, rfl⟩ := List.mem_map.mp hk
        exact ih m hm

/-- What stands at the place of a node is the rewritten node. -/
theorem nodeAt_place {t n : Node K A} {pos dest : List ℕ} (hn : t.nodeAt pos = some n)
    (hdest : t.place pos = some dest) : (rewrite t).nodeAt dest = some (rewrite n) := by
  induction pos generalizing t dest with
  | nil =>
    cases hn
    cases hdest
    rfl
  | cons i pos ih =>
    obtain ⟨m, hm, hbelow⟩ := Node.nodeAt_cons.mp hn
    obtain ⟨m', rest, hm', hrest, hplace⟩ := Node.place_cons.mp hdest
    rw [hm] at hm'
    cases hm'
    cases hsys : t.isSyscall with
    | false =>
      rw [hsys] at hplace
      cases hplace
      refine Node.nodeAt_cons.mpr ⟨rewrite m, ?_, ih hbelow hrest⟩
      rw [rewrite_eq_mapChildren hsys, Node.children_mapChildren, List.getElem?_map, hm]
      rfl
    | true =>
      rw [hsys, if_pos rfl] at hplace
      split_ifs at hplace with hi
      cases hplace
      cases t with
      | call func args keywords =>
        obtain ⟨id, hid⟩ := Option.isSome_iff_exists.mp hsys
        obtain ⟨j, rfl⟩ : ∃ j, i = j + 1 := ⟨i - 1, (Nat.sub_add_cancel hi.1).symm⟩
        have hj : j < args.length := hi.2
        have harg : args[j]? = some m := by
          rw [Node.children, List.getElem?_cons_succ, List.getElem?_append_left hj] at hm
          exact hm
        rw [rewrite_syscall hid]
        -- through the yield and the two tuples
        refine Node.nodeAt_cons.mpr ⟨_, rfl, Node.nodeAt_cons.mpr ⟨_, rfl,
          Node.nodeAt_cons.mpr ⟨rewrite m, ?_, ih hbelow hrest⟩⟩⟩
        show (args.map rewrite)[j]? = _
        rw [List.getElem?_map, harg]
        rfl
      | name | constant | tuple | yield | other => cases hsys

/-- Each system call of the tree `t` has become a yield in `t'`, at the place that is its own. -/
def BecomeYields (t t' : Node K A) : Prop :=
  ∀ pos n, t.nodeAt pos = some n → n.isSyscall = true →
    ∃ dest, t.place pos = some dest ∧ t'.nodeAt dest = some (rewrite n)

theorem becomeYields_rewrite_iff {t : Node K A} : BecomeYields t (rewrite t) ↔ t.Kept := by
  constructor
  · intro h pos n hn hsys
    obtain ⟨dest, hdest, -⟩ := h pos n hn hsys
    exact ⟨dest, hdest⟩
  · intro h pos n hn hsys
    obtain ⟨dest, hdest⟩ := h pos n hn hsys
    exact ⟨dest, hdest, nodeAt_place hn hdest⟩

/-! ### The pass -/

namespace Transformer

theorem visitNodes_eq (ns : List (Node K A)) : visitNodes ns = ns.map visit := by
  induction ns with
  | nil => rfl
  | cons n ns ih => rw [visitNodes, ih, List.map_cons]

theorem visitItems_eq (items : List (Item K A)) :
    visitItems items = items.map (Item.map visit) := by
  induction items with
  | nil => rfl
  | cons item items ih => cases item <;> rw [visitItems, ih, List.map_cons, Item.map]

theorem visitFields_eq (fields : List (Field K A)) :
    visitFields fields = fields.map (Field.map visit) := by
  induction fields with
  | nil => rfl
  | cons field fields ih =>
    cases field with
    | node n => rw [visitFields, ih, List.map_cons, Field.map]
    | atom a => rw [visitFields, ih, List.map_cons, Field.map]
    | list items => rw [visitFields, ih, List.map_cons, Field.map, visitItems_eq]

/-- Everything but a call is visited through its children. -/
theorem visit_eq_mapChildren {n : Node K A} (hn : n.isCall = false) :
    visit n = n.mapChildren visit := by
  cases n with
  | call func args keywords => cases hn
  | name id ctx => rw [visit, Node.mapChildren]
  | constant value => rw [visit, Node.mapChildren]
  | tuple elts ctx => rw [visit, Node.mapChildren, visitNodes_eq]
  | yield value => cases value <;> rw [visit, Node.mapChildren] <;> rfl
  | other cls fields => rw [visit, Node.mapChildren, visitFields_eq]

/-- On a clean tree the pass is the full rewrite. -/
theorem visit_eq_rewrite {n : Node K A} : n.Clean → visit n = rewrite n := by
  induction n using Node.children_induction with
  | _ n ih =>
    intro hclean
    cases hn : n.isCall with
    | true =>
      cases n with
      | call func args keywords =>
        have hchildren := (Node.clean_iff_of_isCall hn).mp hclean
        simp only [Node.children, List.mem_cons, List.mem_append] at hchildren
        have hargs : args.map rewrite = args :=
          map_rewrite_eq_self fun arg harg => hchildren arg (Or.inr (Or.inl harg))
        rw [visit, visitCall]
        cases hid : func.syscall? with
        | some id => rw [rewrite_syscall hid, hargs]
        | none =>
          have hsys : (Node.call func args keywords).isSyscall = false := by
            rw [Node.isSyscall, hid]
            rfl
          rw [rewrite_eq_mapChildren hsys, Node.mapChildren,
            rewrite_eq_self (hchildren func (Or.inl rfl)), hargs,
            map_rewrite_eq_self fun k hk => hchildren k (Or.inr (Or.inr hk))]
      | name | constant | tuple | yield | other => cases hn
    | false =>
      rw [Node.clean_iff hn] at hclean
      rw [visit_eq_mapChildren hn, rewrite_eq_mapChildren (Node.isSyscall_eq_false hn),
        Node.mapChildren_congr fun m hm => ih m hm (hclean m hm)]

/-- The pass leaves what stands inside a call that it visits, or loses it. -/
theorem clean_of_visit {n : Node K A} : (visit n).NoSyscall → n.Kept → n.Clean := by
  induction n using Node.children_induction with
  | _ n ih =>
    intro hvisit hkept
    cases hn : n.isCall with
    | true =>
      rw [Node.clean_iff_of_isCall hn]
      cases n with
      | call func args keywords =>
        rw [visit, visitCall] at hvisit
        cases hid : func.syscall? with
        | some id =>
          rw [hid] at hvisit
          simp only [Node.children, List.mem_cons, List.mem_append]
          rintro m (rfl | hm | hm)
          · exact Node.noSyscall_of_syscall? hid
          · exact noSyscall_yieldOf_iff.mp hvisit m hm
          · exact hkept.keyword hid hm
        | none =>
          rw [hid] at hvisit
          exact (Node.noSyscall_iff.mp hvisit).2
      | name | constant | tuple | yield | other => cases hn
    | false =>
      rw [visit_eq_mapChildren hn, Node.noSyscall_iff, Node.children_mapChildren] at hvisit
      rw [Node.clean_iff hn]
      exact fun m hm => ih m hm (hvisit.2 _ (List.mem_map_of_mem hm)) (hkept.child hm)

/-- **When the pass rewrites every system call**: exactly on the trees where no call that it
visits has a system call inside it. -/
theorem visit_exact_iff (t : Node K A) :
    (visit t).NoSyscall ∧ visit t = rewrite t ∧ BecomeYields t (visit t) ↔ t.Clean := by
  constructor
  · rintro ⟨hnone, heq, hyields⟩
    rw [heq] at hyields
    exact clean_of_visit hnone (becomeYields_rewrite_iff.mp hyields)
  · intro h
    have heq := visit_eq_rewrite h
    refine ⟨heq ▸ noSyscall_rewrite t, heq, ?_⟩
    rw [heq]
    exact becomeYields_rewrite_iff.mpr (Node.kept_of_clean h)

/-- The tree of `sys_fork()`. -/
def sysFork : Node Unit Unit := .call (.name ['s', 'y', 's', '_', 'f', 'o', 'r', 'k'] .load) [] []

/-- The tree of `f(sys_fork())`. -/
def nestedCall : Node Unit Unit := .call (.name ['f'] .load) [sysFork] []

/-- The tree of `sys_spawn(f, k=sys_fork())`. -/
def lostKeyword : Node Unit Unit :=
  .call (.name ['s', 'y', 's', '_', 's', 'p', 'a', 'w', 'n'] .load) [.name ['f'] .load]
    [.other () [.atom (), .node sysFork]]

/-- The argument of an ordinary call is not rewritten, and a system call in a keyword of another
one is lost. -/
theorem not_visit_exact_nestedCall :
    ¬ ((visit nestedCall).NoSyscall ∧ visit nestedCall = rewrite nestedCall ∧
        BecomeYields nestedCall (visit nestedCall)) ∧
      ¬ ((visit lostKeyword).NoSyscall ∧ visit lostKeyword = rewrite lostKeyword ∧
        BecomeYields lostKeyword (visit lostKeyword)) := by
  constructor
  · rintro ⟨h, -, -⟩
    have hfork := h sysFork
      (Relation.ReflTransGen.single (List.mem_cons_of_mem _ List.mem_cons_self))
    exact absurd hfork (by decide)
  · rintro ⟨-, -, h⟩
    obtain ⟨dest, hdest, -⟩ := h [2, 0] sysFork rfl rfl
    cases hdest

end Transformer

end Jyyos.Mosaic.Ast
