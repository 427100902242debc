import Jyyos.Decimal
import Jyyos.Mosaic.Equiv.Solo
import Jyyos.Mosaic.FsCrash

/-!
# What is displayed after the crash

Up to the crash and behind it there is one choice in every state, so that a run is determined by the
subset of the buffered writes that reaches the disk.  Of the disk, the program looks at the inode,
the bitmap and the blocks that the inode names.  The old inode names block 1.  The new one was meant
to name all blocks, and names none (`not_isInfix_newInode`).

`stdout_iff` gives the texts that the program displays: the inode, the bitmap and block 1 are old or
new independently of each other, and once the new inode is on the disk no block is displayed.
-/

namespace Jyyos.Mosaic.FsCrash

open Itertools

/-! ### Names of blocks -/

theorem blockKey_injective : Function.Injective blockKey := fun _ _ h =>
  Nat.succ.inj (toDigits_injective (List.cons.inj h).2)

theorem blockKey_ne (i : ℕ) : blockKey i ≠ inodeKey ∧ blockKey i ≠ usedKey := by
  constructor
  · intro h
    exact absurd (List.cons.inj h).1 (by decide)
  · intro h
    exact absurd (List.cons.inj h).1 (by decide)

/-- A text that contains the name of a block has a digit behind a number sign. -/
theorem exists_of_isInfix {i : ℕ} {s : Text} (h : blockKey i <:+: s) :
    ∃ a c b, s = a ++ '#' :: c :: b ∧ c.isDigit := by
  obtain ⟨a, b, hs⟩ := h
  obtain ⟨c, ds, hds⟩ : ∃ c ds, Nat.toDigits 10 (i + 1) = c :: ds :=
    List.exists_cons_of_ne_nil (Nat.toDigits_ne_nil)
  refine ⟨a, c, ds ++ b, ?_, ?_⟩
  · rw [← hs, blockKey, hds]
    simp
  · exact Nat.isDigit_of_mem_toDigits (by decide) (by decide) (hds ▸ List.mem_cons_self)

/-- The old inode names block 1 only. -/
theorem isInfix_oldInode_iff {i : ℕ} : blockKey i <:+: oldInodeText ↔ i = 0 := by
  constructor
  · intro h
    -- the name begins at the one number sign of the text
    obtain ⟨t, ⟨b, rfl⟩, hsuffix⟩ := List.infix_iff_prefix_suffix.mp h
    have hsharp : ∀ t ∈ oldInodeText.tails, t.head? = some '#' → t = ['#', '1', ']'] := by decide
    have hb : Nat.toDigits 10 (i + 1) ++ b = ['1', ']'] :=
      (List.cons.inj (hsharp _ ((List.mem_tails ..).mpr hsuffix) rfl)).2
    -- there is one digit, since the bracket is none
    obtain ⟨c, ds, hds⟩ := List.exists_cons_of_ne_nil (Nat.toDigits_ne_nil (n := i + 1) (b := 10))
    have hone : Nat.toDigits 10 (i + 1) = Nat.toDigits 10 1 := by
      rw [hds] at hb ⊢
      obtain ⟨rfl, hrest⟩ := List.cons.inj hb
      cases ds with
      | nil => rfl
      | cons d ds =>
        obtain ⟨rfl, -⟩ := List.cons.inj hrest
        have hdigit := Nat.isDigit_of_mem_toDigits (b := 10) (by decide) (by decide)
          (hds ▸ List.mem_cons_of_mem _ List.mem_cons_self)
        exact absurd hdigit (by decide)
    exact Nat.succ.inj (toDigits_injective hone)
  · rintro rfl
    decide

/-- No digit stands behind a number sign. -/
def Quiet (s : Text) : Prop := s.IsChain (fun c d => c = '#' → ¬ d.isDigit) ∧ s.getLast? ≠ some '#'

instance (s : Text) : Decidable (Quiet s) := inferInstanceAs (Decidable (_ ∧ _))

theorem Quiet.append {s t : Text} (hs : Quiet s) (ht : Quiet t) : Quiet (s ++ t) := by
  constructor
  · rw [List.isChain_append]
    refine ⟨hs.1, ht.1, ?_⟩
    intro c hc d _ hsharp
    rw [hsharp] at hc
    exact absurd hc hs.2
  · rw [List.getLast?_append]
    cases hlast : t.getLast? with
    | none => exact hs.2
    | some c => exact fun h => ht.2 (hlast.trans h)

theorem Quiet.not_isInfix {s : Text} (hs : Quiet s) (i : ℕ) : ¬ blockKey i <:+: s := by
  intro h
  obtain ⟨a, c, b, rfl, hc⟩ := exists_of_isInfix h
  have hchain := (List.isChain_append.mp hs.1).2.1
  exact (List.isChain_cons_cons.mp hchain).1 rfl hc

theorem quiet_intercalate {sep : Text} (hsep : Quiet sep) {items : List Text}
    (h : ∀ s ∈ items, Quiet s) : Quiet (sep.intercalate items) := by
  induction items with
  | nil => exact ⟨.nil, Option.some_ne_none _ |>.symm⟩
  | cons s items ih =>
    cases items with
    | nil =>
      rw [List.intercalate_singleton]
      exact h s List.mem_cons_self
    | cons t items =>
      rw [List.intercalate_cons_cons]
      exact ((h s List.mem_cons_self).append hsep).append
        (ih fun r hr => h r (List.mem_cons_of_mem s hr))

/-- **The new inode names no block.** -/
theorem not_isInfix_newInode (N i : ℕ) : ¬ blockKey i <:+: newInodeText N := by
  apply Quiet.not_isInfix
  unfold newInodeText listText
  refine .append (.append ?_ (.append (.append ?_ (quiet_intercalate ?_ ?_)) ?_)) ?_
  · decide
  · decide
  · decide
  · intro s hs
    obtain ⟨t, ht, rfl⟩ := List.mem_map.mp hs
    obtain ⟨j, -, rfl⟩ := List.mem_map.mp ht
    decide
  · decide
  · decide

/-! ### Up to the crash -/

/-- The disk before the file is extended. -/
def stored : Dict Value Value :=
  Dict.empty.union (((Dict.empty.set (.str inodeKey) (.str oldInodeText)).set (.str usedKey)
    (.str "#1".toList)).set (.str "#1".toList) (.str "#1 (old)".toList))

/-- The buffer after `i` rounds. -/
def written (N : ℕ) : ℕ → Dict Value Value
  | 0 => (Dict.empty.set (.str inodeKey) (.str (newInodeText N))).set (.str usedKey) (.list (xb N))
  | i + 1 => (written N i).set (.str (blockKey i)) (.str (newBlockText i))

/-- At the beginning of a round, or behind the last one. -/
def writing (N i : ℕ) : Solo Value Func Frame Unit :=
  if i < N then
    ⟨.suspended (.newBlock i) (.dev (.bwrite (.str (blockKey i)) (.str (newBlockText i)))), (),
      [], stored, written N i⟩
  else ⟨.suspended .crash (.dev .crash), (), [], stored, written N i⟩

theorem ends_writeRounds (N i : ℕ) :
    ((writeRounds N i).ends.map fun r =>
      (⟨r.1, r.2, [], stored, written N i⟩ : Solo Value Func Frame Unit)) =
      some (writing N i) := by
  unfold writeRounds writing
  split_ifs <;> rfl

theorem reaches_writing {N i : ℕ} (hi : i ≤ N) :
    Machine.Reaches (Solo.next (fsCrash N)) (Solo.init (fsCrash N)) (writing N i) := by
  induction i with
  | zero =>
    have hstart : Machine.Reaches (Solo.next (fsCrash N)) (Solo.init (fsCrash N))
        ⟨.suspended .newUsed (.dev (.bwrite (.str usedKey) (.list (xb N)))), (), [], stored,
          Dict.empty.set (.str inodeKey) (.str (newInodeText N))⟩ :=
      .head rfl (.head rfl (.head rfl (.head rfl (.head rfl (.head rfl .refl)))))
    exact hstart.trans (.single (ends_writeRounds N 0))
  | succ i ih =>
    have hnext : Solo.next (fsCrash N) (writing N i) = some (writing N (i + 1)) := by
      unfold writing
      rw [if_pos (show i < N from hi)]
      exact ends_writeRounds N (i + 1)
    exact (ih (Nat.le_of_succ_le hi)).trans (.single hnext)

/-! ### Behind the crash -/

def inodeText (N : ℕ) (new : Bool) : Text := if new then newInodeText N else oldInodeText

def usedValue (N : ℕ) (new : Bool) : Value := if new then .list (xb N) else .str "#1".toList

def blockText (new : Bool) : Text := if new then "#1 (new)".toList else "#1 (old)".toList

/-- What is displayed. -/
def report (N : ℕ) (inode used block : Bool) : Text :=
  headText (.str (inodeText N inode)) (usedValue N used) ++
    if inode = false ∧ 0 < N then blockText block ++ [' '] else []

/-- The program begins to look at the disk. -/
def recovering (disk : Dict Value Value) : Solo Value Func Frame Unit :=
  ⟨.suspended .readInode (.dev (.bread (.str inodeKey))), (), [], disk, Dict.empty⟩

/-- The program has returned. -/
def returned (disk : Dict Value Value) (text : Text) : Solo Value Func Frame Unit :=
  ⟨.finished, (), text, disk, Dict.empty⟩

/-- The inode, the bitmap and the first block on a disk. -/
structure Holds (N : ℕ) (disk : Dict Value Value) (inode used block : Bool) : Prop where
  inode : disk.get? (.str inodeKey) = some (.str (inodeText N inode))
  used : disk.get? (.str usedKey) = some (usedValue N used)
  block : 0 < N → disk.get? (.str (blockKey 0)) = some (.str (blockText block))

/-- Rounds in which nothing is displayed. -/
theorem showRounds_eq_returns {inode : Text} : ∀ {rounds : List ℕ},
    (∀ i ∈ rounds, ¬ blockKey i <:+: inode) → showRounds (.str inode) rounds = .returns ()
  | [], _ => rfl
  | i :: rounds, h => by
    have hi : inInode i (.str inode) = some false :=
      congrArg some (decide_eq_false (h i List.mem_cons_self))
    rw [showRounds, hi]
    exact showRounds_eq_returns fun j hj => h j (List.mem_cons_of_mem i hj)

variable {N : ℕ} {disk : Dict Value Value} {inode used block : Bool}

/-- Suspended at a device call behind the crash. -/
def atDevice (disk : Dict Value Value) (frame : Frame) (c : DevCall Value) (out : Text) :
    Solo Value Func Frame Unit := ⟨.suspended frame (.dev c), (), out, disk, Dict.empty⟩

theorem next_bread {frame : Frame} {key : Value} {out : Text} :
    Solo.next (fsCrash N) (atDevice disk frame (.bread key) out) =
      Solo.resume (fsCrash N) frame ((disk.get? key).getD .none) () ⟨out, disk, Dict.empty⟩ :=
  rfl

theorem next_write {frame : Frame} {text out : Text} :
    Solo.next (fsCrash N) (atDevice disk frame (.write [.str text]) out) =
      Solo.resume (fsCrash N) frame .none () ⟨out ++ text, disk, Dict.empty⟩ := by
  have hjoin : joinArgs [Value.str text] = text := by
    simp [joinArgs, PyVal.str]
  show Solo.resume _ _ _ _ ⟨out ++ joinArgs [Value.str text], disk, Dict.empty⟩ = _
  rw [hjoin]
  rfl

/-- The rounds behind the first one. -/
def laterRounds (N : ℕ) : List ℕ := (List.range (N - 1)).map (· + 1)

theorem showRounds_oldInode (hN : 0 < N) :
    showRounds (.str oldInodeText) (List.range N) =
        atCall (.readBlock (.str oldInodeText) (laterRounds N)) (.bread (.str (blockKey 0))) ∧
      showRounds (.str oldInodeText) (laterRounds N) = .returns () := by
  constructor
  · have hrange : List.range N = 0 :: laterRounds N := by
      rw [laterRounds, ← List.range_succ_eq_map, Nat.sub_add_cancel hN]
    have hfirst : inInode 0 (.str oldInodeText) = some true :=
      congrArg some (decide_eq_true (isInfix_oldInode_iff.mpr rfl))
    rw [hrange, showRounds, hfirst]
  · apply showRounds_eq_returns
    intro i hi hinfix
    obtain ⟨j, -, rfl⟩ := List.mem_map.mp hi
    exact absurd (isInfix_oldInode_iff.mp hinfix) (Nat.succ_ne_zero j)

theorem showRounds_of_not (h : ¬ (inode = false ∧ 0 < N)) :
    showRounds (.str (inodeText N inode)) (List.range N) = .returns () := by
  apply showRounds_eq_returns
  intro i hi hinfix
  have hN : 0 < N := Nat.zero_lt_of_lt (List.mem_range.mp hi)
  cases inode with
  | false => exact h ⟨rfl, hN⟩
  | true => exact not_isInfix_newInode N i hinfix

/-- **What is displayed** is determined by three blocks of the disk. -/
theorem reaches_returned (h : Holds N disk inode used block) :
    Machine.Reaches (Solo.next (fsCrash N)) (recovering disk)
      (returned disk (report N inode used block)) := by
  set i : Value := .str (inodeText N inode) with hi
  set head := headText i (usedValue N used) with hhead
  have hinode : Solo.next (fsCrash N) (recovering disk) =
      some (atDevice disk (.readUsed i) (.bread (.str usedKey)) []) := by
    show Solo.next (fsCrash N) (atDevice disk .readInode (.bread (.str inodeKey)) []) = _
    rw [next_bread, h.inode]
    rfl
  have hused : Solo.next (fsCrash N) (atDevice disk (.readUsed i) (.bread (.str usedKey)) []) =
      some (atDevice disk (.writeInode i) (.write [.str head]) []) := by
    rw [next_bread, h.used]
    rfl
  refine .head hinode (.head hused ?_)
  -- the rounds are over, or the first one finds a block and the others do not
  by_cases hshown : inode = false ∧ 0 < N
  · obtain ⟨rfl, hN⟩ := hshown
    obtain ⟨hfirst, hlater⟩ := showRounds_oldInode hN
    have hwrite : Solo.next (fsCrash N) (atDevice disk (.writeInode i) (.write [.str head]) []) =
        some (atDevice disk (.readBlock i (laterRounds N)) (.bread (.str (blockKey 0))) head) := by
      rw [next_write]
      show (showRounds (.str oldInodeText) (List.range N)).ends.map _ = _
      rw [hfirst]
      rfl
    have hread : Solo.next (fsCrash N)
        (atDevice disk (.readBlock i (laterRounds N)) (.bread (.str (blockKey 0))) head) =
        some (atDevice disk (.writeBlock i (laterRounds N))
          (.write [.str (blockText block ++ [' '])]) head) := by
      rw [next_bread, h.block hN]
      rfl
    refine .head hwrite (.head hread (.single ?_))
    rw [next_write]
    show (showRounds (.str oldInodeText) (laterRounds N)).ends.map _ = _
    rw [hlater, returned, report, if_pos ⟨rfl, hN⟩]
    rfl
  · refine .single ?_
    rw [next_write]
    show (showRounds (.str (inodeText N inode)) (List.range N)).ends.map _ = _
    rw [showRounds_of_not hshown, returned, report, if_neg hshown, List.append_nil]
    rfl

/-! ### The disk after the crash -/

/-- The disk after a crash that persists the writes of `bits`. -/
def crashed (N : ℕ) (bits : List Bool) : Dict Value Value :=
  stored.union (Dict.ofList (compress (written N N).entries bits))

theorem get?_written_inode (N i : ℕ) :
    (written N i).get? (.str inodeKey) = some (.str (newInodeText N)) := by
  induction i with
  | zero => rfl
  | succ i ih =>
    have hne : Value.str inodeKey ≠ .str (blockKey i) := fun h =>
      (blockKey_ne i).1 (Value.str.inj h).symm
    rw [written, Dict.get?_set_of_ne _ hne, ih]

theorem get?_written_used (N i : ℕ) :
    (written N i).get? (.str usedKey) = some (.list (xb N)) := by
  induction i with
  | zero => rfl
  | succ i ih =>
    have hne : Value.str usedKey ≠ .str (blockKey i) := fun h =>
      (blockKey_ne i).2 (Value.str.inj h).symm
    rw [written, Dict.get?_set_of_ne _ hne, ih]

theorem get?_written_block (N i : ℕ) :
    (written N (i + 1)).get? (.str (blockKey 0)) = some (.str (newBlockText 0)) := by
  induction i with
  | zero => exact Dict.get?_set_self ..
  | succ i ih =>
    have hne : Value.str (blockKey 0) ≠ .str (blockKey (i + 1)) := fun h =>
      absurd (blockKey_injective (Value.str.inj h)) (Nat.succ_ne_zero i).symm
    rw [written, Dict.get?_set_of_ne _ hne, ih]

/-- A block that was written is old or new. -/
theorem exists_get?_crashed {k old new : Value} (hold : stored.get? k = some old)
    (hnew : (written N N).get? k = some new) (bits : List Bool) :
    ∃ b : Bool, (crashed N bits).get? k = some (if b then new else old) := by
  rw [crashed, Dict.get?_union]
  rcases Dict.get?_ofList_of_sublist (compress_sublist (written N N).entries bits) k with h | h
  · exact ⟨false, by rw [h, hold]; rfl⟩
  · exact ⟨true, by rw [h, hnew]; rfl⟩

/-- Any choice of the blocks that are new is possible. -/
theorem get?_crashed_keep {k old new : Value} (hold : stored.get? k = some old)
    (hnew : (written N N).get? k = some new) (keep : Value → Bool) :
    (crashed N ((written N N).entries.map fun e => keep e.1)).get? k =
      some (if keep k then new else old) := by
  rw [crashed, Dict.get?_union, compress_map_bits, Dict.get?_ofList_filter, hold, hnew]
  cases keep k <;> rfl

theorem holds_crashed (N : ℕ) (bits : List Bool) :
    ∃ inode used block, Holds N (crashed N bits) inode used block := by
  obtain ⟨inode, hinode⟩ := exists_get?_crashed (show stored.get? (.str inodeKey) = _ from rfl)
    (get?_written_inode N N) bits
  obtain ⟨used, hused⟩ := exists_get?_crashed (show stored.get? (.str usedKey) = _ from rfl)
    (get?_written_used N N) bits
  have hinode' : (crashed N bits).get? (.str inodeKey) = some (.str (inodeText N inode)) := by
    rw [hinode, inodeText]
    cases inode <;> rfl
  cases N with
  | zero => exact ⟨inode, used, false, hinode', hused, fun h => absurd h (lt_irrefl 0)⟩
  | succ n =>
    obtain ⟨block, hblock⟩ := exists_get?_crashed
      (show stored.get? (.str (blockKey 0)) = _ from rfl) (get?_written_block (n + 1) n) bits
    refine ⟨inode, used, block, hinode', hused, fun _ => ?_⟩
    rw [hblock, blockText]
    cases block <;> rfl

theorem exists_holds_crashed (N : ℕ) (inode used block : Bool) :
    ∃ bits, bits.length = (written N N).entries.length ∧
      Holds N (crashed N bits) inode used block := by
  -- the keys decide which writes survive
  set keep : Value → Bool := fun k =>
    if k = .str inodeKey then inode else if k = .str usedKey then used else block with hkeep
  refine ⟨(written N N).entries.map fun e => keep e.1, List.length_map .., ?_, ?_, ?_⟩
  · rw [get?_crashed_keep (show stored.get? (.str inodeKey) = _ from rfl)
      (get?_written_inode N N)]
    cases inode <;> rfl
  · rw [get?_crashed_keep (show stored.get? (.str usedKey) = _ from rfl) (get?_written_used N N)]
    cases used <;> rfl
  · intro hN
    obtain ⟨n, rfl⟩ := Nat.exists_eq_succ_of_ne_zero hN.ne'
    rw [get?_crashed_keep (show stored.get? (.str (blockKey 0)) = _ from rfl)
      (get?_written_block (n + 1) n)]
    cases block <;> rfl

/-! ### Runs -/

theorem sequential (N : ℕ) : (fsCrash N).Sequential := by
  have hshow : ∀ {inode : Value} {rounds : List ℕ} {frame' call h'},
      showRounds inode rounds = .yields frame' call h' → ∃ c, call = .dev c := by
    intro inode rounds frame' call h' hout
    induction rounds with
    | nil => cases hout
    | cons i rounds ih =>
      rw [showRounds] at hout
      split at hout
      · cases hout
        exact ⟨_, rfl⟩
      · exact ih hout
      · cases hout
  have hwrite : ∀ {i : ℕ} {frame' call h'},
      writeRounds N i = .yields frame' call h' → ∃ c, call = .dev c := by
    intro i frame' call h' hout
    unfold writeRounds at hout
    split_ifs at hout
    · cases hout
      exact ⟨_, rfl⟩
    · cases hout
      exact ⟨_, rfl⟩
  intro frame v h frame' call h' hout
  cases frame with
  | newUsed => exact hwrite hout
  | newBlock i => exact hwrite hout
  | writeInode inode => exact hshow hout
  | writeBlock inode rest => exact hshow hout
  | _ =>
    cases hout
    exact ⟨_, rfl⟩

/-- The runs that return: one for each subset of the writes. -/
theorem exists_run_iff {e : Solo Value Func Frame Unit} (he : e.context = .finished) :
    (∃ trace, Solo.run (fsCrash N) trace = some e) ↔
      ∃ bits inode used block, bits.length = (written N N).entries.length ∧
        Holds N (crashed N bits) inode used block ∧
        e = returned (crashed N bits) (report N inode used block) := by
  have hcrash : writing N N = ⟨.suspended .crash (.dev .crash), (), [], stored, written N N⟩ :=
    if_neg (lt_irrefl N)
  refine (Solo.exists_run_iff_of_reaches (reaches_writing le_rfl) he).trans ?_
  rw [hcrash, Solo.exists_run_iff_of_crash he]
  constructor
  · rintro ⟨bits, s, hlen, hs, hrun⟩
    -- behind the crash the disk decides
    obtain ⟨inode, used, block, h⟩ := holds_crashed N bits
    obtain rfl : recovering (crashed N bits) = s := Option.some.inj hs
    obtain ⟨trace, hrun⟩ := (Solo.exists_run_iff_of_reaches (reaches_returned h) he).mp hrun
    exact ⟨bits, inode, used, block, hlen, h, Solo.eq_of_run_finished rfl hrun⟩
  · rintro ⟨bits, inode, used, block, hlen, h, rfl⟩
    refine ⟨bits, recovering (crashed N bits), hlen, rfl, ?_⟩
    exact (Solo.exists_run_iff_of_reaches (reaches_returned h) he).mpr ⟨[], rfl⟩

/-- **What the program can display.**  The inode, the bitmap and the first block are old or new
independently of each other, and with the new inode no block is displayed. -/
theorem stdout_iff (N k : ℕ) (w : World Unit) (text : Text) :
    (∃ trace os w', OperatingSystem.run (fsCrash N) (trace.length + k) [] trace w = (.ok os, w') ∧
      os.contexts = [.finished] ∧ os.devices.stdout = text) ↔
      ∃ inode used block, text = report N inode used block := by
  constructor
  · rintro ⟨trace, os, w', hrun, hfin, rfl⟩
    obtain ⟨e, he, hctx, hdev⟩ := Solo.of_run (sequential N) hrun
    rw [hctx] at hfin
    obtain ⟨bits, inode, used, block, -, -, rfl⟩ :=
      (exists_run_iff (List.singleton_injective hfin)).mp ⟨trace, he⟩
    exact ⟨inode, used, block, by rw [hdev]; rfl⟩
  · rintro ⟨inode, used, block, rfl⟩
    obtain ⟨bits, hlen, h⟩ := exists_holds_crashed N inode used block
    obtain ⟨trace, hrun⟩ := (exists_run_iff rfl).mpr ⟨bits, inode, used, block, hlen, h, rfl⟩
    obtain ⟨os, w', hos, hctx, hdev⟩ := Solo.exists_run (sequential N) hrun k w
    exact ⟨trace, os, w', hos, hctx, by rw [hdev]; rfl⟩

end Jyyos.Mosaic.FsCrash
