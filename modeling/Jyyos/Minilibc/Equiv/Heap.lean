import Jyyos.Minilibc.Heap
import Jyyos.Minilibc.Equiv.Malloc

/-!
# The memory of a program is its heap

`Represents mem₀ mem heap` relates the memory to the heap of the specification.  Each live block has
pages of its own, with a header in the word before the pointer from which `free` computes these
pages, and the words of the block behind it; these pages were not mapped at the beginning, and
everything else is as it was then.

Every operation keeps the relation (`step_refines`), as long as the kernel gives out free pages, the
program uses live blocks only, and the replies to `mmap` are those that `malloc` can deal with.
`run_refines_iff` says that the last condition is exactly the one that is needed.  What a program
has freed is gone from the memory, so that a program which frees everything leaves the memory that
it found (`run_restores_iff`).
-/

namespace Jyyos.Minilibc

/-- The address lies in the pages that were mapped for a block. -/
def InPages (p size a : UInt64) : Prop :=
  (p - 8).toNat ≤ a.toNat ∧ a.toNat < (p - 8).toNat + pages (totalSize size)

/-- The kernel chooses pages that are not mapped. -/
def Mmap.Fresh (mem : Memory) (length : UInt64) : Mmap → Prop
  | .mapped addr => ∀ a : UInt64, addr.toNat ≤ a.toNat → a.toNat < addr.toNat + pages length →
      mem a = none
  | .failed _ => True

/-- What the kernel promises for an operation. -/
def Op.Served (mem : Memory) : Op → Prop
  | .malloc size reply =>
    reply.answer.Possible mem (totalSize size) ∧ reply.answer.Fresh mem (totalSize size)
  | _ => True

/-- The operations that `malloc` can deal with. -/
def Op.Handled (home : Home) : Op → Prop
  | .malloc size reply => reply.Handled home size
  | _ => True

/-- The program and the kernel keep their promises throughout a run. -/
def Kept (home : Home) : Memory → Heap → List Op → Prop
  | _, _, [] => True
  | mem, heap, op :: ops => (heap.Allows op ∧ op.Served mem) ∧
      ∀ result mem', step home mem op = some (result, mem') →
        Kept home mem' (heap.after op result) ops

/-- A pointer whose pages begin before it, with room for a size. -/
structure Placed (p size : UInt64) : Prop where
  pos : 0 < (p - 8).toNat
  aligned : (p - 8).toNat % pageSize = 0
  room : (p - 8).toNat + pages (totalSize size) ≤ 2 ^ 64 - pageSize
  fits : size.toNat ≤ 2 ^ 64 - 16

/-- The block is in the memory. -/
structure BlockAt (mem : Memory) (p : UInt64) (b : Block) : Prop where
  placed : Placed p b.size
  header : ∃ word, mem (p - 8) = some word ∧ pages (word + 8) = pages (totalSize b.size)
  words : ∀ i, b.Has i → mem (wordAddr p i) = some (b.data i)
  mapped : ∀ a, InPages p b.size a → mem a ≠ none

/-- The memory is `mem₀` with the blocks of the heap. -/
structure Represents (mem₀ mem : Memory) (heap : Heap) : Prop where
  block : ∀ p b, heap p = some b → BlockAt mem p b
  apart : ∀ p b q c, heap p = some b → heap q = some c → p ≠ q →
    ∀ a, InPages p b.size a → ¬ InPages q c.size a
  unmapped : ∀ p b, heap p = some b → ∀ a, InPages p b.size a → mem₀ a = none
  elsewhere : ∀ a, (∀ p b, heap p = some b → ¬ InPages p b.size a) → mem a = mem₀ a

/-! ### Addresses -/

variable {p i size : UInt64} {b : Block} {home : Home} {reply : Reply}

theorem totalSize_pos (h : size.toNat ≤ 2 ^ 64 - 16) : 0 < (totalSize size).toNat := by
  rw [toNat_totalSize]
  omega

theorem Placed.size_le (h : Placed p size) : 8 + size.toNat ≤ pages (totalSize size) :=
  (size_le_pages_iff (totalSize_pos h.fits)).mpr h.fits

theorem Placed.toNat_ptr (h : Placed p size) : p.toNat = (p - 8).toNat + 8 := by
  have hroom := h.room
  have hsize := h.size_le
  have hsum : (p - 8 + 8).toNat = ((p - 8).toNat + 8) % 2 ^ 64 := UInt64.toNat_add ..
  rw [UInt64.sub_add_cancel] at hsum
  rw [hsum]
  unfold pageSize at hroom
  omega

theorem Placed.ne_zero (h : Placed p size) : p ≠ 0 := by
  have hptr := h.toNat_ptr
  intro hzero
  rw [hzero, UInt64.toNat_zero] at hptr
  omega

theorem Placed.inPages_header (h : Placed p size) : InPages p size (p - 8) := by
  have hsize := h.size_le
  exact ⟨Nat.le_refl _, by omega⟩

/-- The bytes of a block are in its pages. -/
theorem Placed.inPages (h : Placed p size) {a : UInt64} (ha : InBlock p size a) :
    InPages p size a := by
  have hsize := h.size_le
  have hptr := h.toNat_ptr
  obtain ⟨hlo, hhi⟩ := ha
  exact ⟨by omega, by omega⟩

theorem Placed.toNat_wordAddr (h : Placed p b.size) (hi : b.Has i) :
    (wordAddr p i).toNat = p.toNat + 8 * i.toNat := by
  have hroom := h.room
  have hsize := h.size_le
  have hptr := h.toNat_ptr
  unfold Block.Has at hi
  unfold pageSize at hroom
  have hmul : (8 * i).toNat = 8 * i.toNat := by
    rw [UInt64.toNat_mul]
    exact Nat.mod_eq_of_lt (show 8 * i.toNat < 2 ^ 64 by omega)
  rw [wordAddr, UInt64.toNat_add, hmul]
  exact Nat.mod_eq_of_lt (by omega)

theorem Placed.inPages_word (h : Placed p b.size) (hi : b.Has i) :
    InPages p b.size (wordAddr p i) := by
  have haddr := h.toNat_wordAddr hi
  unfold Block.Has at hi
  exact h.inPages ⟨by omega, by omega⟩

/-- The words of a block are behind its header. -/
theorem Placed.wordAddr_ne_header (h : Placed p b.size) (hi : b.Has i) :
    wordAddr p i ≠ p - 8 := by
  intro heq
  have haddr := h.toNat_wordAddr hi
  have hptr := h.toNat_ptr
  rw [heq] at haddr
  omega

theorem Placed.wordAddr_inj {j : UInt64} (h : Placed p b.size) (hi : b.Has i) (hj : b.Has j)
    (heq : wordAddr p i = wordAddr p j) : i = j := by
  have haddr := h.toNat_wordAddr hi
  rw [heq, h.toNat_wordAddr hj] at haddr
  exact UInt64.toNat_inj.mp (by omega)

/-! ### Blocks -/

variable {mem₀ mem mem' : Memory} {heap : Heap} {op : Op}

/-- A block is not changed from outside its pages. -/
theorem BlockAt.congr (h : BlockAt mem p b) (hsame : ∀ a, InPages p b.size a → mem' a = mem a) :
    BlockAt mem' p b where
  placed := h.placed
  header := by
    obtain ⟨word, hword, hpages⟩ := h.header
    exact ⟨word, (hsame _ h.placed.inPages_header).trans hword, hpages⟩
  words i hi := (hsame _ (h.placed.inPages_word hi)).trans (h.words i hi)
  mapped a ha := by
    rw [hsame a ha]
    exact h.mapped a ha

theorem update_eq_some_iff {q : UInt64} {b' c : Block} :
    Function.update heap p (some b') q = some c ↔
      (q = p ∧ b' = c) ∨ (q ≠ p ∧ heap q = some c) := by
  by_cases hq : q = p
  · subst hq
    simp
  · simp [hq]

/-- **A block is put into its pages**, a new one or one that takes the place of another one of its
size. -/
theorem Represents.set (hrep : Represents mem₀ mem heap) (hnew : BlockAt mem' p b)
    (hsame : ∀ a, ¬ InPages p b.size a → mem' a = mem a)
    (hclear : ∀ q c, heap q = some c → q ≠ p → ∀ a, InPages q c.size a → ¬ InPages p b.size a)
    (hunmapped : ∀ a, InPages p b.size a → mem₀ a = none)
    (hold : ∀ c, heap p = some c → c.size = b.size) :
    Represents mem₀ mem' (Function.update heap p (some b)) where
  block q c hq := by
    obtain ⟨rfl, rfl⟩ | ⟨hne, hq⟩ := update_eq_some_iff.mp hq
    · exact hnew
    · exact (hrep.block q c hq).congr fun a ha => hsame a (hclear q c hq hne a ha)
  apart q c r d hq hr hqr a hqa hra := by
    obtain ⟨rfl, rfl⟩ | ⟨hq', hq⟩ := update_eq_some_iff.mp hq
    · obtain ⟨rfl, rfl⟩ | ⟨hr', hr⟩ := update_eq_some_iff.mp hr
      · exact hqr rfl
      · exact hclear r d hr hr' a hra hqa
    · obtain ⟨hrp, rfl⟩ | ⟨hr', hr⟩ := update_eq_some_iff.mp hr
      · rw [hrp] at hra
        exact hclear q c hq hq' a hqa hra
      · exact hrep.apart q c r d hq hr hqr a hqa hra
  unmapped q c hq a ha := by
    obtain ⟨rfl, rfl⟩ | ⟨hne, hq⟩ := update_eq_some_iff.mp hq
    · exact hunmapped a ha
    · exact hrep.unmapped q c hq a ha
  elsewhere a ha := by
    -- a block that was at `p` before had the same pages
    have hp := ha p b (update_eq_some_iff.mpr (.inl ⟨rfl, rfl⟩))
    rw [hsame a hp]
    apply hrep.elsewhere
    intro q c hq hqa
    by_cases hne : q = p
    · subst hne
      rw [InPages, hold c hq] at hqa
      exact hp hqa
    · exact ha q c (update_eq_some_iff.mpr (.inr ⟨hne, hq⟩)) hqa

/-- Live pages are mapped. -/
theorem Represents.not_inPages_of_none (hrep : Represents mem₀ mem heap) {a : UInt64}
    (ha : mem a = none) (q : UInt64) (c : Block) (hq : heap q = some c) : ¬ InPages q c.size a :=
  fun hqa => (hrep.block q c hq).mapped a hqa ha

theorem Represents.free_of_none (hrep : Represents mem₀ mem heap) (hplaced : Placed p size)
    (hnone : ∀ a, InPages p size a → mem a = none) : heap p = none := by
  cases hp : heap p with
  | none => rfl
  | some c =>
    have hheader := hnone _ hplaced.inPages_header
    exact absurd (hrep.block p c hp).placed.inPages_header
      (hrep.not_inPages_of_none hheader p c hp)

/-- **A new block** goes to pages that were free, now and at the beginning. -/
theorem Represents.insert (hrep : Represents mem₀ mem heap) (hnew : BlockAt mem' p b)
    (hnone : ∀ a, InPages p b.size a → mem a = none)
    (hsame : ∀ a, ¬ InPages p b.size a → mem' a = mem a) :
    Represents mem₀ mem' (Function.update heap p (some b)) := by
  apply hrep.set hnew hsame
  · exact fun q c hq _ a hqa ha => hrep.not_inPages_of_none (hnone a ha) q c hq hqa
  · intro a ha
    rw [← hrep.elsewhere a (hrep.not_inPages_of_none (hnone a ha))]
    exact hnone a ha
  · intro c hc
    rw [hrep.free_of_none hnew.placed hnone] at hc
    cases hc

/-- **The pages of a block are given back.** -/
theorem Represents.erase (hrep : Represents mem₀ mem heap) (hp : heap p = some b)
    (hgone : ∀ a, InPages p b.size a → mem' a = none)
    (hsame : ∀ a, ¬ InPages p b.size a → mem' a = mem a) :
    Represents mem₀ mem' (Function.update heap p none) := by
  have hlive : ∀ {q c}, Function.update heap p none q = some c → q ≠ p ∧ heap q = some c := by
    intro q c hq
    by_cases hne : q = p
    · rw [hne, Function.update_self] at hq
      cases hq
    · rw [Function.update_of_ne hne] at hq
      exact ⟨hne, hq⟩
  constructor
  · intro q c hq
    obtain ⟨hne, hq⟩ := hlive hq
    exact (hrep.block q c hq).congr fun a ha => hsame a (hrep.apart q c p b hq hp hne a ha)
  · intro q c r d hq hr
    exact hrep.apart q c r d (hlive hq).2 (hlive hr).2
  · intro q c hq
    exact hrep.unmapped q c (hlive hq).2
  · intro a ha
    -- inside the pages of the block nothing was mapped at the beginning, either
    by_cases hpa : InPages p b.size a
    · rw [hgone a hpa, hrep.unmapped p b hp a hpa]
    · rw [hsame a hpa]
      apply hrep.elsewhere
      intro q c hq hqa
      by_cases hne : q = p
      · subst hne
        rw [hp] at hq
        cases hq
        exact hpa hqa
      · exact ha q c (by rwa [Function.update_of_ne hne]) hqa

theorem Represents.refl (mem : Memory) : Represents mem mem Heap.empty where
  block _ b h := absurd h (Option.some_ne_none b).symm
  apart _ b _ _ h := absurd h (Option.some_ne_none b).symm
  unmapped _ b h := absurd h (Option.some_ne_none b).symm
  elsewhere _ _ := rfl

/-! ### Operations -/

theorem inPages_add_iff {addr a : UInt64} : InPages (addr + 8) size a ↔
    addr.toNat ≤ a.toNat ∧ a.toNat < addr.toNat + pages (totalSize size) := by
  rw [InPages, UInt64.add_sub_cancel]

theorem apply_of_inPages {addr a : UInt64} (ha : InPages (addr + 8) size a) :
    (Mmap.mapped addr).apply mem (totalSize size) a = some 0 :=
  if_pos (inPages_add_iff.mp ha)

theorem apply_of_not_inPages {addr a : UInt64} (ha : ¬ InPages (addr + 8) size a) :
    (Mmap.mapped addr).apply mem (totalSize size) a = mem a :=
  if_neg fun hin => ha (inPages_add_iff.mpr hin)

/-- The block of a successful `malloc`. -/
theorem blockAt_malloc {addr : UInt64} (h : (Mmap.mapped addr).Possible mem (totalSize size))
    (hfits : size.toNat ≤ 2 ^ 64 - 16) {word : UInt64}
    (hpages : pages (word + 8) = pages (totalSize size)) :
    BlockAt (Function.update ((Mmap.mapped addr).apply mem (totalSize size)) addr (some word))
      (addr + 8) ⟨size, fun _ => 0⟩ := by
  obtain ⟨hne, haligned, hpos, hroom⟩ := h
  have hback : addr + 8 - 8 = addr := UInt64.add_sub_cancel ..
  have hplaced : Placed (addr + 8) size := by
    constructor
    · rw [hback]
      exact Nat.pos_of_ne_zero fun hzero => hne (UInt64.toNat_inj.mp hzero)
    · rwa [hback]
    · rwa [hback]
    · exact hfits
  constructor
  · exact hplaced
  · exact ⟨word, by rw [hback, Function.update_self], hpages⟩
  · intro i hi
    have hword := hplaced.wordAddr_ne_header (b := ⟨size, fun _ => 0⟩) hi
    have hin := hplaced.inPages_word (b := ⟨size, fun _ => 0⟩) hi
    rw [hback] at hword
    rw [Function.update_of_ne hword]
    exact apply_of_inPages hin
  · intro a ha
    by_cases heq : a = addr
    · rw [heq, Function.update_self]
      exact Option.some_ne_none _
    · rw [Function.update_of_ne heq, apply_of_inPages ha]
      exact Option.some_ne_none _

/-- A pointer to free pages is one that the heap can give out. -/
theorem gives_malloc (hrep : Represents mem₀ mem heap) (hplaced : Placed p size)
    (hnone : ∀ a, InPages p size a → mem a = none) :
    heap.Gives (.malloc size reply) (some p) := by
  have hptr := hplaced.toNat_ptr
  have hroom := hplaced.room
  have hsize := hplaced.size_le
  have haligned := hplaced.aligned
  unfold pageSize at hroom haligned
  refine ⟨p, rfl, fun _ => ⟨by omega, by omega, hrep.free_of_none hplaced hnone, ?_⟩⟩
  rintro q c hq a ⟨ha, hqa⟩
  have hmem := hnone a (hplaced.inPages ha)
  exact hrep.not_inPages_of_none hmem q c hq ((hrep.block q c hq).placed.inPages hqa)

/-- **A successful `malloc`** puts a block into pages that were free. -/
theorem malloc_refines {addr : UInt64} (hrep : Represents mem₀ mem heap)
    (hanswer : reply.answer = .mapped addr) (hserved : (Op.malloc size reply).Served mem)
    (hhandled : reply.Handled home size) :
    ∃ result mem', step home mem (.malloc size reply) = some (result, mem') ∧
      heap.Gives (.malloc size reply) result ∧
      Represents mem₀ mem' (heap.after (.malloc size reply) result) := by
  obtain ⟨hpossible, hfresh⟩ := hserved
  have hmalloc := malloc_mapped home hanswer hpossible
  rw [hanswer] at hpossible hfresh
  unfold Reply.Handled at hhandled
  rw [hanswer] at hhandled
  obtain ⟨hfits, hpages⟩ := hhandled
  have hnew := blockAt_malloc hpossible hfits (pages_header_iff.mpr hpages)
  have hnone : ∀ a, InPages (addr + 8) size a → mem a = none := by
    intro a ha
    obtain ⟨hlo, hhi⟩ := inPages_add_iff.mp ha
    exact hfresh a hlo hhi
  refine ⟨some (addr + 8), _, by rw [step, hmalloc], gives_malloc hrep hnew.placed hnone, ?_⟩
  rw [Heap.after, if_neg hnew.placed.ne_zero]
  apply hrep.insert hnew hnone
  -- outside the new pages there is neither the mapping nor the header
  intro a ha
  have hheader := hnew.placed.inPages_header
  rw [UInt64.add_sub_cancel] at hheader
  have hne : a ≠ addr := by
    intro heq
    rw [heq] at ha
    exact ha hheader
  rw [Function.update_of_ne hne]
  exact apply_of_not_inPages ha

/-- **`free`** gives back exactly the pages of the block. -/
theorem free_refines (hrep : Represents mem₀ mem heap) (hp : heap p = some b) :
    ∃ mem', step home mem (.free p) = some (none, mem') ∧
      Represents mem₀ mem' (heap.after (.free p) none) := by
  have hblock := hrep.block p b hp
  have hnull := hblock.placed.ne_zero
  obtain ⟨word, hword, hpages⟩ := hblock.header
  have hlegal : (p - 8).toNat % pageSize = 0 ∧ 0 < (word + 8).toNat := by
    refine ⟨hblock.placed.aligned, ?_⟩
    have hsize := hblock.placed.size_le
    rw [← hpages] at hsize
    by_contra hzero
    rw [pages, pageSize, Nat.eq_zero_of_not_pos hzero] at hsize
    omega
  refine ⟨munmap mem (p - 8) (word + 8), ?_, ?_⟩
  · rw [step, if_neg hnull, free, if_neg hnull, hword]
    rfl
  · rw [Heap.after, if_neg hnull]
    apply hrep.erase hp
    · intro a ha
      rw [munmap, if_pos hlegal, hpages]
      exact if_pos ha
    · intro a ha
      rw [munmap, if_pos hlegal, hpages]
      exact if_neg ha

/-- **A store** changes one word of one block. -/
theorem store_refines {value : UInt64} (hrep : Represents mem₀ mem heap) (hp : heap p = some b)
    (hi : b.Has i) :
    ∃ mem', step home mem (.store p i value) = some (none, mem') ∧
      Represents mem₀ mem' (heap.after (.store p i value) none) := by
  have hblock := hrep.block p b hp
  have hword := hblock.placed.inPages_word hi
  refine ⟨Function.update mem (wordAddr p i) (some value), ?_, ?_⟩
  · rw [step, hblock.words i hi]
    rfl
  rw [Heap.after, hp, Option.map_some]
  apply hrep.set
  · constructor
    · exact hblock.placed
    · obtain ⟨word, hheader, hpages⟩ := hblock.header
      refine ⟨word, ?_, hpages⟩
      rw [Function.update_of_ne (hblock.placed.wordAddr_ne_header hi).symm]
      exact hheader
    · intro j hj
      by_cases hij : j = i
      · show _ = some (Function.update b.data i value j)
        rw [hij, Function.update_self, Function.update_self]
      · have hne : wordAddr p j ≠ wordAddr p i := fun heq =>
          hij (hblock.placed.wordAddr_inj hj hi heq)
        show _ = some (Function.update b.data i value j)
        rw [Function.update_of_ne hne, Function.update_of_ne hij]
        exact hblock.words j hj
    · intro a ha
      by_cases heq : a = wordAddr p i
      · rw [heq, Function.update_self]
        exact Option.some_ne_none value
      · rw [Function.update_of_ne heq]
        exact hblock.mapped a ha
  · intro a ha
    have hne : a ≠ wordAddr p i := by
      intro heq
      rw [heq] at ha
      exact ha hword
    rw [Function.update_of_ne hne]
  · exact fun q c hq hne => hrep.apart q c p b hq hp hne
  · exact hrep.unmapped p b hp
  · intro c hc
    rw [hp] at hc
    cases hc
    rfl

/-- **Every operation follows the heap**, when `malloc` can deal with the reply it gets. -/
theorem step_refines (hrep : Represents mem₀ mem heap) (hallows : heap.Allows op)
    (hserved : op.Served mem) (hhandled : op.Handled home) :
    ∃ result mem', step home mem op = some (result, mem') ∧ heap.Gives op result ∧
      Represents mem₀ mem' (heap.after op result) := by
  cases op with
  | malloc size reply =>
    cases hanswer : reply.answer with
    | mapped addr => exact malloc_refines hrep hanswer hserved hhandled
    | failed errno =>
      change Reply.Handled home size reply at hhandled
      unfold Reply.Handled at hhandled
      rw [hanswer] at hhandled
      have hnull := (malloc_failed_iff home hanswer hserved.1).mpr hhandled
      refine ⟨some 0, mem, by rw [step, hnull], ⟨0, rfl, fun hne => absurd rfl hne⟩, ?_⟩
      rwa [Heap.after, if_pos rfl]
  | free p =>
    cases hallows with
    | inl hnull =>
      refine ⟨none, mem, by rw [step, if_pos hnull], rfl, ?_⟩
      rwa [Heap.after, if_pos hnull]
    | inr hlive =>
      obtain ⟨b, hb⟩ := Option.isSome_iff_exists.mp hlive
      obtain ⟨mem', hstep, hrep'⟩ := free_refines hrep hb
      exact ⟨none, mem', hstep, rfl, hrep'⟩
  | load p i =>
    obtain ⟨b, hb, hi⟩ := hallows
    refine ⟨some (b.data i), mem, ?_, ⟨b, hb, rfl⟩, hrep⟩
    rw [step, (hrep.block p b hb).words i hi]
    rfl
  | store p i value =>
    obtain ⟨b, hb, hi⟩ := hallows
    obtain ⟨mem', hstep, hrep'⟩ := store_refines hrep hb hi
    exact ⟨none, mem', hstep, rfl, hrep'⟩

/-- A failed call that does not end in a fault was noticed. -/
theorem malloc_eq_null {errno : ℕ} (hanswer : reply.answer = .failed errno)
    (h : reply.answer.Possible mem (totalSize size)) (hok : malloc home mem size reply ≠ .fault) :
    malloc home mem size reply = .null := by
  rw [hanswer] at h
  by_cases hvalue : (Mmap.failed errno).value = -1
  · rw [malloc, hanswer, if_pos hvalue]
  · -- without the null pointer it is the header that is stored at an error value
    refine absurd ?_ hok
    rw [malloc, hanswer, if_neg hvalue, Mmap.apply, h.2]

/-- **An operation that follows the heap was handled.** -/
theorem handled_of_step {result : Option UInt64} (hserved : op.Served mem)
    (hstep : step home mem op = some (result, mem')) (hgives : heap.Gives op result)
    (hrep : Represents mem₀ mem' (heap.after op result)) : op.Handled home := by
  cases op with
  | malloc size reply =>
    have hpossible := hserved.1
    show reply.Handled home size
    unfold Reply.Handled
    cases hanswer : reply.answer with
    | failed errno =>
      apply (malloc_failed_iff home hanswer hpossible).mp
      apply malloc_eq_null hanswer hpossible
      intro hfault
      rw [step, hfault] at hstep
      cases hstep
    | mapped addr =>
      rw [step, malloc_mapped home hanswer hpossible] at hstep
      cases hstep
      rw [hanswer] at hpossible
      obtain ⟨hne, haligned, hpos, hroom⟩ := hpossible
      have hle := le_pages (totalSize size)
      obtain ⟨p, hp, hbounds⟩ := hgives
      cases hp
      have haddr : (addr + 8).toNat = addr.toNat + 8 := by
        rw [UInt64.toNat_add]
        unfold pageSize at hroom
        exact Nat.mod_eq_of_lt (show addr.toNat + 8 < 2 ^ 64 by omega)
      have hptr : addr + 8 ≠ 0 := by
        intro hzero
        rw [hzero, UInt64.toNat_zero] at haddr
        omega
      -- a block of that size would not end below `2 ^ 64` if the sum had wrapped
      obtain ⟨-, hend, -⟩ := hbounds hptr
      have hpos' : addr.toNat ≠ 0 := fun hzero => hne (UInt64.toNat_inj.mp hzero)
      have hfits : size.toNat ≤ 2 ^ 64 - 16 := by
        unfold pageSize at haligned
        omega
      -- and its header stands for its pages
      rw [Heap.after, if_neg hptr] at hrep
      obtain ⟨word, hword, hpages⟩ := (hrep.block _ _ (Function.update_self ..)).header
      rw [UInt64.add_sub_cancel, Function.update_self] at hword
      cases hword
      exact ⟨hfits, pages_header_iff.mp hpages⟩
  | free p => trivial
  | load p i => trivial
  | store p i value => trivial

/-! ### Runs -/

variable {ops : List Op}

/-- The run goes on without a fault, its results are those of the heap, and in every state the
memory represents the heap. -/
def Follows (home : Home) (mem₀ : Memory) : Memory → Heap → List Op → Prop
  | mem, heap, [] => Represents mem₀ mem heap
  | mem, heap, op :: ops => Represents mem₀ mem heap ∧
      ∃ result mem', step home mem op = some (result, mem') ∧ heap.Gives op result ∧
        Follows home mem₀ mem' (heap.after op result) ops

theorem Follows.represents (h : Follows home mem₀ mem heap ops) : Represents mem₀ mem heap := by
  cases ops with
  | nil => exact h
  | cons op ops => exact h.1

theorem follows_iff (hrep : Represents mem₀ mem heap) (hkept : Kept home mem heap ops) :
    Follows home mem₀ mem heap ops ↔ ∀ op ∈ ops, op.Handled home := by
  induction ops generalizing mem heap with
  | nil => exact ⟨fun _ op hop => absurd hop List.not_mem_nil, fun _ => hrep⟩
  | cons op ops ih =>
    obtain ⟨⟨hallows, hserved⟩, hrest⟩ := hkept
    rw [List.forall_mem_cons]
    constructor
    · rintro ⟨-, result, mid, hstep, hgives, hfollows⟩
      have hmid := hfollows.represents
      exact ⟨handled_of_step hserved hstep hgives hmid,
        (ih hmid (hrest result mid hstep)).mp hfollows⟩
    · rintro ⟨hop, hops⟩
      obtain ⟨result, mid, hstep, hgives, hmid⟩ := step_refines hrep hallows hserved hop
      exact ⟨hrep, result, mid, hstep, hgives, (ih hmid (hrest result mid hstep)).mpr hops⟩

/-- **A program and its heap**: when the kernel gives out free pages and the program uses live
blocks only, the run goes on without a fault, with the results of the heap and with its blocks in
the memory, iff `malloc` can deal with every reply that it gets. -/
theorem run_refines_iff (hkept : Kept home mem Heap.empty ops) :
    Follows home mem mem Heap.empty ops ↔ ∀ op ∈ ops, op.Handled home :=
  follows_iff (Represents.refl mem) hkept

/-- The results and the memory at the end of a run that follows the heap. -/
theorem Follows.exists_run (h : Follows home mem₀ mem heap ops) :
    ∃ results mem' heap', run home mem ops = some (results, mem') ∧ heap.Run ops results heap' ∧
      Represents mem₀ mem' heap' := by
  induction ops generalizing mem heap with
  | nil => exact ⟨[], mem, heap, rfl, .nil heap, h⟩
  | cons op ops ih =>
    obtain ⟨-, result, mid, hstep, hgives, hfollows⟩ := h
    obtain ⟨results, mem', heap', hrun, hheap, hrep⟩ := ih hfollows
    refine ⟨result :: results, mem', heap', ?_, .cons hgives hheap, hrep⟩
    rw [run, hstep, Option.bind_some]
    exact Option.map_eq_some_iff.mpr ⟨(results, mem'), hrun, rfl⟩

/-- The results of a run determine the heap after it. -/
theorem Heap.Run.unique {results : List (Option UInt64)} {heap₁ heap₂ : Heap}
    (h₁ : heap.Run ops results heap₁) (h₂ : heap.Run ops results heap₂) : heap₁ = heap₂ := by
  induction h₁ with
  | nil =>
    cases h₂
    rfl
  | cons _ _ ih =>
    cases h₂ with
    | cons _ hrest => exact ih hrest

/-- 50 bytes at the address `0x10000`: a word is stored, read back, and the block is freed.  The
header holds the flags. -/
def fiftyBytes : List Op :=
  [.malloc 50 ⟨.mapped 0x10000, 0x401000, 514⟩, .store 0x10008 1 7, .load 0x10008 1, .free 0x10008]

theorem kept_fiftyBytes : Kept .r11 (fun _ => none) Heap.empty fiftyBytes := by
  have hpossible : (Mmap.mapped 0x10000).Possible (fun _ => none) (totalSize 50) :=
    ⟨by decide, by decide, by decide, by decide⟩
  refine ⟨⟨trivial, hpossible, fun _ _ _ => rfl⟩, ?_⟩
  intro result mem hmalloc
  cases hmalloc
  refine ⟨⟨⟨⟨50, fun _ => 0⟩, rfl, by decide⟩, trivial⟩, ?_⟩
  intro result mem hstore
  cases hstore
  refine ⟨⟨⟨⟨50, Function.update (fun _ => 0) 1 7⟩, rfl, by decide⟩, trivial⟩, ?_⟩
  intro result mem hload
  cases hload
  exact ⟨⟨.inr rfl, trivial⟩, fun _ _ _ => trivial⟩

theorem handled_fiftyBytes : ∀ op ∈ fiftyBytes, op.Handled .r11 := by
  intro op hop
  simp only [fiftyBytes, List.mem_cons, List.not_mem_nil, or_false] at hop
  obtain rfl | rfl | rfl | rfl := hop
  · refine ⟨by decide, ?_⟩
    intro word hword
    cases hword
    decide
  all_goals exact trivial

theorem run_refines_iff_fiftyBytes :
    Follows .r11 (fun _ => none) (fun _ => none) Heap.empty fiftyBytes :=
  (run_refines_iff kept_fiftyBytes).mpr handled_fiftyBytes

/-- **Nothing is leaked or lost**: when `malloc` can deal with every reply, a run leaves the memory
that it found iff every block has been freed. -/
theorem run_restores_iff {results : List (Option UInt64)} (hkept : Kept home mem Heap.empty ops)
    (hhandled : ∀ op ∈ ops, op.Handled home) (hrun : run home mem ops = some (results, mem'))
    (hheap : Heap.empty.Run ops results heap) : mem' = mem ↔ heap = Heap.empty := by
  obtain ⟨results₁, mem₁, heap₁, hrun₁, hheap₁, hrep⟩ :=
    ((follows_iff (Represents.refl mem) hkept).mpr hhandled).exists_run
  rw [hrun] at hrun₁
  cases hrun₁
  cases hheap.unique hheap₁
  constructor
  · intro hsame
    funext p
    cases hp : heap p with
    | none => rfl
    | some b =>
      -- the header of a live block was not mapped at the beginning
      have hblock := hrep.block p b hp
      obtain ⟨word, hword, -⟩ := hblock.header
      rw [hsame, hrep.unmapped p b hp _ hblock.placed.inPages_header] at hword
      cases hword
  · rintro rfl
    funext a
    exact hrep.elsewhere a fun _ b h => absurd h (Option.some_ne_none b).symm

theorem heap_fiftyBytes
    (h : Heap.empty.Run fiftyBytes [some 0x10008, none, some 7, none] heap) :
    heap = Heap.empty := by
  obtain _ | ⟨-, _ | ⟨-, _ | ⟨-, _ | ⟨-, _ | _⟩⟩⟩⟩ := h
  funext p
  by_cases hp : p = 0x10008
  · rw [hp]
    rfl
  · exact (Function.update_of_ne hp ..).trans <| (Function.update_of_ne hp ..).trans <|
      Function.update_of_ne hp ..

theorem run_restores_iff_fiftyBytes : ∃ mem',
    run .r11 (fun _ => none) fiftyBytes = some ([some 0x10008, none, some 7, none], mem') ∧
      mem' = fun _ => none := by
  obtain ⟨results, mem', heap, hrun, hheap, -⟩ :=
    ((follows_iff (Represents.refl _) kept_fiftyBytes).mpr handled_fiftyBytes).exists_run
  have hresults : results = [some 0x10008, none, some 7, none] := by
    cases hrun
    rfl
  rw [hresults] at hrun hheap
  exact ⟨mem', hrun, (run_restores_iff kept_fiftyBytes handled_fiftyBytes hrun hheap).mpr
    (heap_fiftyBytes hheap)⟩

end Jyyos.Minilibc
