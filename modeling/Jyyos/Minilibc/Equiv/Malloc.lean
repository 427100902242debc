import Jyyos.Minilibc.Malloc
import Mathlib.Tactic.Common
import Mathlib.Algebra.Group.Nat.Defs

/-!
# When `malloc` is sound

`malloc` takes one particular error value for a failure, and computes the length of the mapping in
wrapping arithmetic.  `malloc_sound_iff` says what follows: a failed call is noticed iff its error
number is 1, and the block of a successful call is large enough iff the size is at most
`2 ^ 64 - 16`.  Beyond that, rounding up wraps to a mapping of one page, or to a length of 0, which
the kernel refuses.

`free` computes the length that `mmap` was asked for as long as the header holds the size.  Where
`syscall` has overwritten it, `free` gives back the right pages only by chance: with the flags in
the header, which are usually less than a page, iff the block is not larger than a page
(`handled_r11_iff`).
-/

namespace Jyyos.Minilibc

/-- What the kernel can answer when it is asked for `length` bytes: an address at the beginning of a
page that leaves room for the pages below the last one of the address space, which is kept free so
that no address looks like an error; or an error number, whose negative is no mapped address.  It
does not map 0 bytes. -/
def Mmap.Possible (mem : Memory) (length : UInt64) : Mmap → Prop
  | .mapped addr => addr ≠ 0 ∧ addr.toNat % pageSize = 0 ∧ 0 < length.toNat ∧
      addr.toNat + pages length ≤ 2 ^ 64 - pageSize
  | .failed errno => (1 ≤ errno ∧ errno ≤ 4095) ∧ mem (Mmap.failed errno).value = none

/-- What is asked of `malloc`: a null pointer for a failed call; for a successful one a pointer into
the range that was mapped with at least `size` bytes after it, such that `free` unmaps exactly that
range as long as the header is untouched. -/
def Sound (home : Home) (mem : Memory) (size : UInt64) (reply : Reply) : Prop :=
  match reply.answer with
  | .failed _ => malloc home mem size reply = .null
  | .mapped addr => ∃ p mem', malloc home mem size reply = .ptr p mem' ∧
      (addr.toNat ≤ p.toNat ∧ p.toNat + size.toNat ≤ addr.toNat + pages (totalSize size)) ∧
      ∀ mem'' : Memory, mem'' (p - 8) = mem' (p - 8) → ∃ base length,
        free mem'' p = some (base, length) ∧ base = addr ∧ pages length = pages (totalSize size)

/-- The replies that `malloc` can deal with for a size.  A word that `syscall` has put in the place
of `size` must stand for as many pages. -/
def Reply.Handled (home : Home) (size : UInt64) (reply : Reply) : Prop :=
  match reply.answer with
  | .failed errno => errno = 1
  | .mapped _ => size.toNat ≤ 2 ^ 64 - 16 ∧
      ∀ word, home.overwritten reply = some word → pages (word + 8) = pages (totalSize size)

/-! ### Sizes -/

theorem testBit_mask (i : ℕ) : (2 ^ 64 - 8).testBit i = decide (3 ≤ i ∧ i < 64) := by
  have hmask : 2 ^ 64 - 8 = (2 ^ 61 - 1) <<< 3 := by decide
  rw [hmask, Nat.testBit_shiftLeft, Nat.testBit_two_pow_sub_one, Bool.eq_iff_iff]
  simp only [Bool.and_eq_true, decide_eq_true_eq]
  omega

/-- Clearing the last three bits. -/
theorem toNat_and_not_seven (x : UInt64) : (x &&& ~~~7).toNat = x.toNat / 8 * 8 := by
  have hmask : (~~~7 : UInt64).toNat = 2 ^ 64 - 8 := by decide
  have hshift : x.toNat / 8 * 8 = x.toNat >>> 3 <<< 3 := by
    rw [Nat.shiftLeft_eq, Nat.shiftRight_eq_div_pow]
  rw [UInt64.toNat_and, hmask, hshift]
  apply Nat.eq_of_testBit_eq
  intro i
  rw [Nat.testBit_and, testBit_mask, Nat.testBit_shiftLeft, Nat.testBit_shiftRight]
  by_cases hi : 3 ≤ i
  · rw [show 3 + (i - 3) = i by omega]
    by_cases hi' : i < 64
    · simp [hi, hi']
    · have hbit : x.toNat.testBit i = false :=
        Nat.testBit_lt_two_pow
          (Nat.lt_of_lt_of_le x.toNat_lt (Nat.pow_le_pow_right (by omega) (by omega)))
      simp [hbit]
  · simp [hi]

theorem toNat_alignSize (size : UInt64) :
    (alignSize size).toNat = (size.toNat + 7) % 2 ^ 64 / 8 * 8 := by
  rw [alignSize, toNat_and_not_seven, UInt64.toNat_add]
  rfl

theorem toNat_totalSize (size : UInt64) :
    (totalSize size).toNat = ((size.toNat + 7) % 2 ^ 64 / 8 * 8 + 8) % 2 ^ 64 := by
  rw [totalSize, UInt64.toNat_add, toNat_alignSize]
  rfl

theorem le_pages (length : UInt64) : length.toNat ≤ pages length := by
  unfold pages pageSize
  omega

/-- **The length is large enough** for the size and the header iff the additions do not wrap. -/
theorem size_le_pages_iff {size : UInt64} (hpos : 0 < (totalSize size).toNat) :
    8 + size.toNat ≤ pages (totalSize size) ↔ size.toNat ≤ 2 ^ 64 - 16 := by
  have hsize := size.toNat_lt
  have hle := le_pages (totalSize size)
  rw [toNat_totalSize] at hpos
  constructor
  · intro h
    by_contra hbig
    -- the sum with 7 wraps to a number below 8, and one page is mapped
    have htotal : (totalSize size).toNat = 8 := by
      rw [toNat_totalSize]
      omega
    rw [pages, pageSize, htotal] at h
    omega
  · intro h
    rw [toNat_totalSize] at hle
    omega

/-! ### The calls -/

variable {home : Home} {mem mem' : Memory} {size : UInt64} {reply : Reply}

/-- What `free` makes of the header. -/
theorem pages_header_iff : pages (header home size reply + 8) = pages (totalSize size) ↔
    ∀ word, home.overwritten reply = some word → pages (word + 8) = pages (totalSize size) := by
  rw [header]
  cases home.overwritten reply with
  | none => exact ⟨fun _ word h => absurd h.symm (Option.some_ne_none word), fun _ => rfl⟩
  | some word =>
    constructor
    · intro h word' hword
      cases hword
      exact h
    · exact fun h => h word rfl

variable (home) in
/-- A failed call is noticed iff it returns `-1`. -/
theorem malloc_failed_iff {errno : ℕ} (hanswer : reply.answer = .failed errno)
    (h : reply.answer.Possible mem (totalSize size)) :
    malloc home mem size reply = .null ↔ errno = 1 := by
  rw [hanswer] at h
  obtain ⟨⟨hlo, hhi⟩, hnone⟩ := h
  have hvalue : (Mmap.failed errno).value = -1 ↔ errno = 1 := by
    have hlt : errno < UInt64.size := Nat.lt_of_le_of_lt hhi (by decide)
    rw [Mmap.value, UInt64.neg_inj, ← UInt64.toNat_inj, UInt64.toNat_ofNat_of_lt' hlt]
    rfl
  constructor
  · intro hnull
    by_contra hne
    rw [malloc, hanswer, if_neg fun heq => hne (hvalue.mp heq), Mmap.apply, hnone] at hnull
    cases hnull
  · intro herrno
    rw [malloc, hanswer, if_pos (hvalue.mpr herrno)]

variable (home) in
/-- A successful call stores the header and returns the address behind it. -/
theorem malloc_mapped {addr : UInt64} (hanswer : reply.answer = .mapped addr)
    (h : reply.answer.Possible mem (totalSize size)) :
    malloc home mem size reply = .ptr (addr + 8)
      (Function.update ((Mmap.mapped addr).apply mem (totalSize size)) addr
        (some (header home size reply))) := by
  rw [hanswer] at h
  obtain ⟨hne, halign, hpos, hroom⟩ := h
  have hle := le_pages (totalSize size)
  have hminus : addr ≠ -1 := by
    rintro rfl
    exact absurd halign (by decide)
  have hin : addr.toNat ≤ addr.toNat ∧ addr.toNat < addr.toNat + pages (totalSize size) := by omega
  have hword : (Mmap.mapped addr).apply mem (totalSize size) addr = some 0 := if_pos hin
  rw [malloc, hanswer, Mmap.value, if_neg hminus, hword]

/-- **When `malloc` is sound**: a failed call must have failed with the error number 1, and for a
successful one the size must be at most `2 ^ 64 - 16`, and a word that has taken the place of the
size must stand for as many pages. -/
theorem malloc_sound_iff (h : reply.answer.Possible mem (totalSize size)) :
    Sound home mem size reply ↔ reply.Handled home size := by
  unfold Sound Reply.Handled
  cases hanswer : reply.answer with
  | failed errno => exact malloc_failed_iff home hanswer h
  | mapped addr =>
    have hmalloc := malloc_mapped home hanswer h
    rw [hanswer] at h
    obtain ⟨hne, halign, hpos, hroom⟩ := h
    have hpage : pageSize ≤ pages (totalSize size) := by
      unfold pages pageSize
      omega
    have haddr : (addr + 8).toNat = addr.toNat + 8 := by
      rw [UInt64.toNat_add]
      show (addr.toNat + 8) % 2 ^ 64 = _
      unfold pageSize at hroom hpage
      omega
    have hback : addr + 8 - 8 = addr := by simp
    have hptr : addr + 8 ≠ 0 := by
      intro hzero
      rw [hzero] at haddr
      exact absurd haddr (by rw [UInt64.toNat_zero]; omega)
    -- `free` adds 8 to the header, whatever it is
    have hfree : ∀ mem'' : Memory, mem'' (addr + 8 - 8) = some (header home size reply) →
        free mem'' (addr + 8) = some (addr, header home size reply + 8) := by
      intro mem'' hheader
      rw [free, if_neg hptr, hheader, hback]
      rfl
    dsimp only
    rw [← size_le_pages_iff hpos, ← pages_header_iff]
    constructor
    · rintro ⟨p, mem₁, hmalloc₁, ⟨-, hfits⟩, hunmap⟩
      rw [hmalloc] at hmalloc₁
      cases hmalloc₁
      refine ⟨by omega, ?_⟩
      obtain ⟨base, length, hcall, -, hpages⟩ := hunmap _ rfl
      rw [hfree _ (by rw [hback, Function.update_self])] at hcall
      cases hcall
      exact hpages
    · rintro ⟨hfits, hpages⟩
      refine ⟨addr + 8, _, hmalloc, ⟨by omega, by omega⟩, ?_⟩
      intro mem'' hsame
      rw [hback, Function.update_self] at hsame
      exact ⟨addr, _, hfree mem'' (by rw [hback, hsame]), rfl, hpages⟩

/-- 50 bytes at the address `0x10000`, with the flags in the header. -/
theorem malloc_sound_iff_fifty :
    Sound .r11 (fun _ => none) 50 ⟨.mapped 0x10000, 0x401000, 514⟩ := by
  have hpossible : (Mmap.mapped 0x10000).Possible (fun _ => none) (totalSize 50) :=
    ⟨by decide, by decide, by decide, by decide⟩
  refine (@malloc_sound_iff .r11 (fun _ => none) 50 ⟨.mapped 0x10000, 0x401000, 514⟩
    hpossible).mpr ⟨by decide, ?_⟩
  intro word hword
  cases hword
  decide

/-- The error number 12 is not noticed, the largest size is given one page, and the three pages of
10000 bytes are not given back when the flags are in the header. -/
theorem malloc_unsound : ¬ Sound .saved (fun _ => none) 50 ⟨.failed 12, 0x401000, 514⟩ ∧
    ¬ Sound .saved (fun _ => none) (-1) ⟨.mapped 0x10000, 0x401000, 514⟩ ∧
    ¬ Sound .r11 (fun _ => none) 10000 ⟨.mapped 0x10000, 0x401000, 514⟩ := by
  refine ⟨?_, ?_, ?_⟩
  · intro h
    cases h
  · rintro ⟨p, mem', hmalloc, ⟨-, hfits⟩, -⟩
    have hp : p = 0x10000 + 8 := by
      cases hmalloc
      rfl
    rw [hp] at hfits
    exact absurd hfits (by decide)
  · rintro ⟨p, mem', hmalloc, -, hunmap⟩
    cases hmalloc
    obtain ⟨base, length, hfree, -, hpages⟩ := hunmap _ rfl
    cases hfree
    exact absurd hpages (by decide)

/-- **With the flags in the header**, which are less than a page, a block can be freed iff it is not
larger than a page. -/
theorem handled_r11_iff {addr : UInt64} (hanswer : reply.answer = .mapped addr)
    (hflags : reply.r11.toNat + 8 ≤ pageSize) :
    reply.Handled .r11 size ↔ size.toNat ≤ pageSize - 8 := by
  have hsize := size.toNat_lt
  have hpage : pages (reply.r11 + 8) = pageSize := by
    have hsum : (reply.r11 + 8).toNat = reply.r11.toNat + 8 := by
      rw [UInt64.toNat_add]
      unfold pageSize at hflags
      exact Nat.mod_eq_of_lt (show reply.r11.toNat + 8 < 2 ^ 64 by omega)
    unfold pageSize at hflags
    rw [pages, hsum, pageSize]
    omega
  unfold Reply.Handled
  rw [hanswer]
  dsimp only [Home.overwritten]
  simp only [Option.some.injEq, forall_eq', hpage]
  rw [pages, toNat_totalSize, pageSize]
  omega

end Jyyos.Minilibc
