import Jyyos.Testkit.Basic
import Mathlib.Data.List.Induction

/-!
# TestKit runs every test, unless its table is full

The table is registered call by call (`register_cases`), goes through the pipe unchanged however the
reads cut it (`load_readLoop`), and is run up to its first entry that is not enabled
(`runLoop_append`).  That entry is there as long as the table is not full; the assertion of
`tk_add_test` lets it fill up, and then the loop looks at an entry behind the array.
`runsAll_iff` puts these together.
-/

namespace Jyyos.Testkit

open Bytes

/-! ### Registration -/

section Register

variable (env : Env) (base : UInt64)

/-- The entry that is stored for the call with index `i`. -/
def Call.entry (c : Call) (i : ℕ) : Testcase :=
  if c.t.argv = 0 then c.t else c.withArgv base i (env.exe.getD 0)

/-- The entries of the tests that are registered. -/
def entries (calls : List Call) : List Testcase := calls.zipIdx.map fun x => x.1.entry env base x.2

/-- The arguments fit into `argv_copy`. -/
def Call.Short (c : Call) : Prop := c.t.argv ≠ 0 → c.args.length + 1 < TK_MAX_ARGV_LEN

theorem enabled_entry (c : Call) (i : ℕ) : (c.entry env base i).enabled = c.t.enabled := by
  unfold Call.entry
  split_ifs <;> rfl

theorem length_entries (calls : List Call) : (entries env base calls).length = calls.length := by
  rw [entries, List.length_map, List.length_zipIdx]

theorem entries_concat (calls : List Call) (c : Call) : entries env base (calls ++ [c]) =
    entries env base calls ++ [c.entry env base calls.length] := by
  rw [entries, List.zipIdx_append, List.map_append, Nat.zero_add]
  rfl

theorem register_concat (calls : List Call) (c : Call) : register env base (calls ++ [c]) =
    register env base calls >>= fun tab => tkAddTest env base tab c := by
  rw [register, List.foldlM_append]
  simp [register]

variable {env base}

/-- The table with the given entries. -/
def Table.of (ts : List Testcase) : Table :=
  ⟨ts ++ List.replicate (TK_MAX_TESTS - ts.length) .zero, ts.length⟩

theorem set_replicate {n : ℕ} (hn : 0 < n) (t : Testcase) :
    (List.replicate n Testcase.zero).set 0 t = t :: List.replicate (n - 1) .zero := by
  cases n with
  | zero => omega
  | succ n => rfl

/-- Storing an entry behind the others. -/
theorem Table.of_concat {ts : List Testcase} (hroom : ts.length < TK_MAX_TESTS) (t : Testcase) :
    (⟨(Table.of ts).tests.set ts.length t, ts.length + 1⟩ : Table) = Table.of (ts ++ [t]) := by
  simp only [Table.of]
  rw [List.set_append_right _ _ (Nat.le_refl _), Nat.sub_self, set_replicate (by omega)]
  simp [Nat.sub_sub]

/-- **What a call comes to**: its entry is stored, an assertion fails, or its arguments do not
fit. -/
theorem tkAddTest_cases (hon : env.run ∨ env.verbose) (ts : List Testcase) (c : Call) :
    (tkAddTest env base (.of ts) c = .ok (.of (ts ++ [c.entry env base ts.length])) ∧
        ts.length < TK_MAX_TESTS ∧ c.Short) ∨
      tkAddTest env base (.of ts) c = .error .assertion ∨
      (tkAddTest env base (.of ts) c = .error .overflow ∧ ¬ c.Short) := by
  have henv : (!env.run && !env.verbose) = false := by
    rcases hon with h | h <;> simp [h]
  have hntests : (Table.of ts).ntests = ts.length := rfl
  rw [tkAddTest, henv, if_neg Bool.false_ne_true, hntests]
  by_cases hroom : ts.length < TK_MAX_TESTS
  · rw [if_neg (not_not.mpr hroom), Table.of_concat hroom]
    unfold Call.entry Call.Short
    by_cases hargv : c.t.argv = 0
    · rw [if_pos hargv, if_pos hargv]
      exact Or.inl ⟨rfl, hroom, fun hne => absurd hargv hne⟩
    · rw [if_neg hargv, if_neg hargv]
      by_cases hstest : c.t.stest = 0
      · rw [if_pos hstest]
        exact Or.inr (Or.inl rfl)
      · rw [if_neg hstest]
        by_cases hshort : c.args.length + 1 < TK_MAX_ARGV_LEN
        · rw [if_neg (not_not.mpr hshort)]
          cases env.exe with
          | none => exact Or.inr (Or.inl rfl)
          | some exe =>
            refine Or.inl ⟨?_, hroom, fun _ => hshort⟩
            rw [Option.getD_some, ← Table.of_concat hroom]
        · rw [if_pos hshort]
          exact Or.inr (Or.inr ⟨rfl, fun hall => hshort (hall hargv)⟩)
  · rw [if_pos hroom]
    exact Or.inr (Or.inl rfl)

variable (base) in
/-- **What the calls come to**: all their entries are in the table, an assertion failed, or the
arguments of one of them do not fit. -/
theorem register_cases (hon : env.run ∨ env.verbose) (calls : List Call) :
    (register env base calls = .ok (.of (entries env base calls)) ∧
        calls.length ≤ TK_MAX_TESTS ∧ ∀ c ∈ calls, c.Short) ∨
      register env base calls = .error .assertion ∨
      (register env base calls = .error .overflow ∧ ∃ c ∈ calls, ¬ c.Short) := by
  induction calls using List.reverseRecOn with
  | nil => exact Or.inl ⟨rfl, Nat.zero_le _, nofun⟩
  | append_singleton calls c ih =>
    rw [register_concat]
    rcases ih with ⟨heq, hlen, hshort⟩ | heq | ⟨heq, c', hc', hlong⟩
    · rw [heq]
      show (tkAddTest env base _ c = _ ∧ _) ∨ tkAddTest env base _ c = _ ∨
        (tkAddTest env base _ c = _ ∧ _)
      rcases tkAddTest_cases hon (entries env base calls) c with
        ⟨hadd, hroom, hc⟩ | hadd | ⟨hadd, hc⟩
      · rw [length_entries] at hadd hroom
        refine Or.inl ⟨by rw [hadd, entries_concat], ?_, ?_⟩
        · rw [List.length_append]
          exact hroom
        · intro d hd
          rcases List.mem_append.mp hd with hd | hd
          · exact hshort d hd
          · rw [List.mem_singleton.mp hd]
            exact hc
      · exact Or.inr (Or.inl hadd)
      · exact Or.inr (Or.inr ⟨hadd, c, List.mem_append_right _ (List.mem_singleton_self c), hc⟩)
    · rw [heq]
      exact Or.inr (Or.inl rfl)
    · rw [heq]
      exact Or.inr (Or.inr ⟨rfl, c', List.mem_append_left _ hc', hlong⟩)

end Register

/-! ### Transfer -/

theorem length_bytes (t : Testcase) : t.bytes.length = testcaseSize := by
  rw [Testcase.bytes, length_flatMap_of_forall (length_littleEndian 8), List.length_append,
    List.length_map, t.length_argvCopy]
  simp [testcaseSize, argvCopyOffset, TK_MAX_ARGV_LEN]

/-- The `i`th word of a struct. -/
theorem wordAt_bytes {ws : List ℕ} {i w : ℕ} (h : ws[i]? = some w) (hw : w < 256 ^ 8) :
    wordAt (ws.flatMap (littleEndian 8)) (i * 8) = w := by
  rw [wordAt, take_drop_flatMap (length_littleEndian 8) ws h, ofLittleEndian_littleEndian hw]

section Words

variable (t : Testcase)

theorem toNat_lt_word (x : UInt32) : x.toNat < 256 ^ 8 := Nat.lt_of_lt_of_le x.toNat_lt (by decide)

theorem argvCopy_bytes : ((List.range TK_MAX_ARGV_LEN).map fun i =>
    UInt64.ofNat (wordAt t.bytes (argvCopyOffset + i * 8))) = t.argvCopy := by
  apply List.ext_getElem
  · rw [List.length_map, List.length_range, t.length_argvCopy]
  · intro i hi hi'
    rw [List.getElem_map, List.getElem_range]
    have hoffset : argvCopyOffset + i * 8 = (9 + i) * 8 := by
      rw [argvCopyOffset]
      omega
    rw [hoffset, Testcase.bytes, wordAt_bytes (w := t.argvCopy[i].toNat) _ (UInt64.toNat_lt _),
      UInt64.ofNat_toNat]
    rw [List.getElem?_append_right (by simp), List.getElem?_map]
    simp [List.getElem?_eq_getElem hi']

/-- **A struct is read back from its bytes.** -/
theorem ofBytes_bytes : Testcase.ofBytes t.bytes = t := by
  have henabled : wordAt t.bytes 0 = t.enabled.toNat := wordAt_bytes (i := 0) rfl (toNat_lt_word _)
  have hname : wordAt t.bytes 8 = t.name.toNat := wordAt_bytes (i := 1) rfl (UInt64.toNat_lt _)
  have hloc : wordAt t.bytes 16 = t.loc.toNat := wordAt_bytes (i := 2) rfl (UInt64.toNat_lt _)
  have hinit : wordAt t.bytes 24 = t.init.toNat := wordAt_bytes (i := 3) rfl (UInt64.toNat_lt _)
  have hfini : wordAt t.bytes 32 = t.fini.toNat := wordAt_bytes (i := 4) rfl (UInt64.toNat_lt _)
  have hutest : wordAt t.bytes 40 = t.utest.toNat := wordAt_bytes (i := 5) rfl (UInt64.toNat_lt _)
  have hstest : wordAt t.bytes 48 = t.stest.toNat := wordAt_bytes (i := 6) rfl (UInt64.toNat_lt _)
  have hargc : wordAt t.bytes 56 = t.argc.toNat := wordAt_bytes (i := 7) rfl (toNat_lt_word _)
  have hargv : wordAt t.bytes 64 = t.argv.toNat := wordAt_bytes (i := 8) rfl (UInt64.toNat_lt _)
  simp only [Testcase.ofBytes, henabled, hname, hloc, hinit, hfini, hutest, hstest, hargc, hargv,
    argvCopy_bytes, UInt32.ofNat_toNat, UInt64.ofNat_toNat]

end Words

theorem load_image {tests : List Testcase} (h : tests.length = TK_MAX_TESTS) :
    load (image tests) = tests := by
  apply List.ext_getElem
  · rw [load, List.length_map, List.length_range, h]
  · intro i hi hi'
    simp only [load, List.getElem_map, List.getElem_range]
    rw [image, take_drop_flatMap length_bytes tests (List.getElem?_eq_getElem hi'), ofBytes_bytes]

/-- The loop stores the results of the reads one behind the other. -/
theorem readLoop_eq {size : ℕ} (results : List (List UInt8)) : ∀ (bytesRead : ℕ) (mem : List UInt8),
    mem.length = size → bytesRead + results.flatten.length = size → (∀ r ∈ results, r ≠ []) →
    readLoop size bytesRead mem results = mem.take bytesRead ++ results.flatten := by
  induction results with
  | nil =>
    intro bytesRead mem hmem hsize _
    rw [List.flatten_nil, List.length_nil] at hsize
    rw [readLoop, List.flatten_nil, List.append_nil, List.take_of_length_le (by omega)]
  | cons r results ih =>
    intro bytesRead mem hmem hsize hne
    have hr : r ≠ [] := hne r List.mem_cons_self
    have hpos : 0 < r.length := List.length_pos_iff.mpr hr
    rw [List.flatten_cons, List.length_append] at hsize
    rw [readLoop, if_pos ⟨by omega, hr⟩, ih _ _ _ (by omega)
      fun r' hr' => hne r' (List.mem_cons_of_mem _ hr')]
    · have hlen : (mem.take bytesRead ++ r).length = bytesRead + r.length := by
        rw [List.length_append, List.length_take]
        omega
      rw [List.take_left' hlen, List.flatten_cons, List.append_assoc]
    · simp only [List.length_append, List.length_take, List.length_drop]
      omega

/-- **The table goes through the pipe unchanged**, however the reads cut it. -/
theorem load_readLoop {tests : List Testcase} (h : tests.length = TK_MAX_TESTS) {mem : List UInt8}
    (hmem : mem.length = (image tests).length) {results : List (List UInt8)}
    (hresults : results.flatten = image tests) (hne : ∀ r ∈ results, r ≠ []) :
    load (readLoop (image tests).length 0 mem results) = tests := by
  rw [readLoop_eq results 0 mem hmem (by rw [hresults, Nat.zero_add]) hne, List.take_zero,
    List.nil_append, hresults, load_image h]

/-! ### Run -/

/-- The loop goes through entries that are enabled, and on behind them. -/
theorem runLoop_append {ts : List Testcase} (hts : ∀ t ∈ ts, t.enabled ≠ 0) (us : List Testcase) :
    runLoop (ts ++ us) = (runLoop us).map (ts ++ ·) := by
  induction ts with
  | nil =>
    rw [List.nil_append]
    cases runLoop us with
    | error e => rfl
    | ok rs => rfl
  | cons t ts ih =>
    rw [List.cons_append, runLoop, if_pos (hts t List.mem_cons_self),
      ih fun t' ht' => hts t' (List.mem_cons_of_mem _ ht')]
    cases runLoop us with
    | error e => rfl
    | ok rs => rfl

/-- What the loop runs is enabled. -/
theorem enabled_of_runLoop {ts : List Testcase} : ∀ {rs : List Testcase},
    runLoop ts = .ok rs → ∀ t ∈ rs, t.enabled ≠ 0 := by
  induction ts with
  | nil => nofun
  | cons t ts ih =>
    intro rs h
    rw [runLoop] at h
    by_cases ht : t.enabled = 0
    · rw [if_neg (not_not.mpr ht)] at h
      injection h with h
      rw [← h]
      nofun
    · rw [if_pos ht] at h
      cases hrest : runLoop ts with
      | error e =>
        rw [hrest] at h
        cases h
      | ok rest =>
        rw [hrest] at h
        injection h with h
        rw [← h]
        intro t' ht'
        rcases List.mem_cons.mp ht' with rfl | ht'
        · exact ht
        · exact ih hrest t' ht'

theorem runAllTestcases_eq (ts : List Testcase) : runAllTestcases ts = runLoop ts := by
  cases ts with
  | nil => rfl
  | cons t ts =>
    rw [runAllTestcases]
    by_cases ht : t.enabled = 0
    · rw [if_pos ht, runLoop, if_neg (not_not.mpr ht)]
    · rw [if_neg ht]

/-- **The entries of a table are all run** iff they are enabled and the table is not full. -/
theorem runAllTestcases_of_iff {ts : List Testcase} (hlen : ts.length ≤ TK_MAX_TESTS) :
    runAllTestcases (Table.of ts).tests = .ok ts ↔
      ts.length < TK_MAX_TESTS ∧ ∀ t ∈ ts, t.enabled ≠ 0 := by
  rw [runAllTestcases_eq, Table.of]
  constructor
  · intro h
    have hts := enabled_of_runLoop h
    refine ⟨Nat.lt_of_le_of_ne hlen fun hfull => ?_, hts⟩
    -- a full table leaves nothing behind its entries
    rw [hfull, Nat.sub_self, runLoop_append hts] at h
    cases h
  · rintro ⟨hroom, hts⟩
    obtain ⟨n, hn⟩ : ∃ n, TK_MAX_TESTS - ts.length = n + 1 :=
      ⟨TK_MAX_TESTS - ts.length - 1, by omega⟩
    have hzero : ¬ Testcase.zero.enabled ≠ 0 := not_not.mpr rfl
    rw [runLoop_append hts, hn, List.replicate_succ, runLoop, if_neg hzero]
    show Except.ok (ts ++ []) = .ok ts
    rw [List.append_nil]

/-! ### The three together -/

section Whole

variable (env : Env) (base : UInt64) (calls : List Call)

/-- The calls are made, and however the reads of the worker cut the array, the worker has the same
array and runs the tests of the calls, each once and in their order. -/
def RunsAll : Prop :=
  ∃ tab, register env base calls = .ok tab ∧ ∀ (mem : List UInt8) (results : List (List UInt8)),
    mem.length = (image tab.tests).length → results.flatten = image tab.tests →
    (∀ r ∈ results, r ≠ []) →
    load (readLoop (image tab.tests).length 0 mem results) = tab.tests ∧
      runAllTestcases (load (readLoop (image tab.tests).length 0 mem results)) =
        .ok (entries env base calls)

variable {env base calls}

theorem length_of_tests {ts : List Testcase} (h : ts.length ≤ TK_MAX_TESTS) :
    (Table.of ts).tests.length = TK_MAX_TESTS := by
  rw [Table.of, List.length_append, List.length_replicate]
  omega

theorem length_image (tests : List Testcase) :
    (image tests).length = tests.length * testcaseSize :=
  length_flatMap_of_forall length_bytes tests

/-- There is a way for the reads to cut the array: not at all. -/
theorem image_ne_nil {ts : List Testcase} (h : ts.length ≤ TK_MAX_TESTS) :
    image (Table.of ts).tests ≠ [] := by
  rw [← List.length_pos_iff, length_image, length_of_tests h]
  decide

/-- For a table that is registered, only the run decides. -/
theorem runsAll_of_register
    (hreg : register env base calls = .ok (.of (entries env base calls)))
    (hlen : calls.length ≤ TK_MAX_TESTS) :
    RunsAll env base calls ↔
      runAllTestcases (Table.of (entries env base calls)).tests = .ok (entries env base calls) := by
  rw [← length_entries env base] at hlen
  have htests := length_of_tests hlen
  constructor
  · rintro ⟨tab, htab, hall⟩
    rw [hreg] at htab
    injection htab with htab
    subst htab
    have hwhole : ∀ r ∈ [image (Table.of (entries env base calls)).tests], r ≠ [] := by
      intro r hr
      rw [List.mem_singleton.mp hr]
      exact image_ne_nil hlen
    obtain ⟨hload, hrun⟩ := hall _ _ rfl (List.flatten_singleton) hwhole
    rwa [hload] at hrun
  · intro hrun
    refine ⟨_, hreg, fun mem results hmem hresults hne => ?_⟩
    have hload := load_readLoop htests hmem hresults hne
    refine ⟨hload, ?_⟩
    rw [hload]
    exact hrun

theorem enabled_entries_iff :
    (∀ t ∈ entries env base calls, t.enabled ≠ 0) ↔ ∀ c ∈ calls, c.t.enabled ≠ 0 := by
  rw [entries, List.forall_mem_map]
  constructor
  · intro h c hc
    obtain ⟨i, hi⟩ := List.getElem?_of_mem hc
    have hx := h (c, i) (List.mk_mem_zipIdx_iff_getElem?.mpr hi)
    rwa [enabled_entry] at hx
  · intro h x hx
    rw [enabled_entry]
    exact h x.1 (List.fst_mem_of_mem_zipIdx hx)

/-- **TestKit runs every test once** iff the table is not full, the tests are enabled and their
arguments fit.  The calls may be any that the assertions of `tk_add_test` let through. -/
theorem runsAll_iff (hon : env.run ∨ env.verbose)
    (haccept : register env base calls ≠ .error .assertion) :
    RunsAll env base calls ↔ calls.length < TK_MAX_TESTS ∧ (∀ c ∈ calls, c.t.enabled ≠ 0) ∧
      ∀ c ∈ calls, c.Short := by
  rcases register_cases base hon calls with ⟨hreg, hlen, hshort⟩ | hreg | ⟨hreg, c, hc, hlong⟩
  · rw [runsAll_of_register hreg hlen, runAllTestcases_of_iff, enabled_entries_iff, length_entries]
    · exact ⟨fun h => ⟨h.1, h.2, hshort⟩, fun h => ⟨h.1, h.2.1⟩⟩
    · rw [length_entries]
      exact hlen
  · exact absurd hreg haccept
  · constructor
    · rintro ⟨tab, htab, -⟩
      rw [hreg] at htab
      cases htab
    · exact fun h => absurd (h.2.2 c hc) hlong

variable (base) in
/-- Tests without arguments are accepted as long as the table has room for them. -/
theorem register_unit (hon : env.run ∨ env.verbose) (hunit : ∀ c ∈ calls, c.t.argv = 0)
    (hlen : calls.length ≤ TK_MAX_TESTS) :
    register env base calls = .ok (.of (entries env base calls)) := by
  induction calls using List.reverseRecOn with
  | nil => rfl
  | append_singleton calls c ih =>
    rw [List.length_append, List.length_singleton] at hlen
    have hc : c.t.argv = 0 := hunit c (List.mem_append_right _ (List.mem_singleton_self c))
    have henv : (!env.run && !env.verbose) = false := by
      rcases hon with h | h <;> simp [h]
    have hlast : c.entry env base calls.length = c.t := if_pos hc
    have hntests : (Table.of (entries env base calls)).ntests = calls.length := length_entries ..
    rw [register_concat, ih (fun c' hc' => hunit c' (List.mem_append_left _ hc')) (by omega),
      entries_concat, hlast]
    show tkAddTest env base _ c = _
    rw [tkAddTest, henv, if_neg Bool.false_ne_true, hntests, if_neg (by omega), if_pos hc,
      ← length_entries env base, Table.of_concat (by rw [length_entries]; omega)]

end Whole

/-- A unit test at some addresses, as the macro `UnitTest` registers it. -/
def unitCall : Call where
  t := { Testcase.zero with enabled := 1, name := 0x404010, loc := 0x404020, utest := 0x401136 }
  args := []
  argc_eq := fun _ => rfl

/-- The environment of `TK_RUN=1 ./main`. -/
def runEnv : Env := ⟨true, false, some 0x7ffe1000⟩

theorem runsAll_iff_three : RunsAll runEnv 0x404060 (List.replicate 3 unitCall) := by
  have haccept : register runEnv 0x404060 (List.replicate 3 unitCall) ≠ .error .assertion := by
    rw [register_unit _ (Or.inl rfl) (fun c hc => (List.eq_of_mem_replicate hc) ▸ rfl) (by decide)]
    nofun
  refine (runsAll_iff (Or.inl rfl) haccept).mpr ⟨by decide, fun c hc => ?_, fun c hc => ?_⟩
  · rw [List.eq_of_mem_replicate hc]
    decide
  · rw [List.eq_of_mem_replicate hc]
    exact fun hargv => absurd rfl hargv

/-- **A full table is accepted, and the run looks behind its end.** -/
theorem runAll_full_overflow :
    (∃ tab, register runEnv 0x404060 (List.replicate TK_MAX_TESTS unitCall) = .ok tab ∧
      runAllTestcases tab.tests = .error .overflow) ∧
    ¬ RunsAll runEnv 0x404060 (List.replicate TK_MAX_TESTS unitCall) := by
  have hunit : ∀ c ∈ List.replicate TK_MAX_TESTS unitCall, c.t.argv = 0 :=
    fun c hc => (List.eq_of_mem_replicate hc) ▸ rfl
  have hlen : (List.replicate TK_MAX_TESTS unitCall).length = TK_MAX_TESTS := List.length_replicate
  have hon : runEnv.run ∨ runEnv.verbose := Or.inl rfl
  have hreg := register_unit 0x404060 hon hunit (Nat.le_of_eq hlen)
  have hrun : runAllTestcases (Table.of
      (entries runEnv 0x404060 (List.replicate TK_MAX_TESTS unitCall))).tests =
      .error .overflow := by
    rw [runAllTestcases_eq, Table.of, length_entries, hlen, Nat.sub_self, runLoop_append]
    · rfl
    · rw [enabled_entries_iff]
      exact fun c hc => (List.eq_of_mem_replicate hc) ▸ by decide
  refine ⟨⟨_, hreg, hrun⟩, ?_⟩
  rw [runsAll_of_register hreg (Nat.le_of_eq hlen), hrun]
  nofun

end Jyyos.Testkit
