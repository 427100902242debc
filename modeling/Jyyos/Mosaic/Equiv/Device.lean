import Jyyos.Mosaic.Device
import Mathlib.Data.Set.Card

/-!
# The block device and its crashes

`Blocks` says what the block device is for: every key has the value `S(k)` that the last sync or
crash fixed and, if it was written since, the latest written value `W(k)`; a sync fixes every
written value, a crash those of some subset of the written keys.  `Tracks` relates it to the two
dictionaries, and every step of the code keeps it (`tracks_step`).

`blockDevice_spec` states the semantics of the device after any sequence of steps from the empty
storage: what a read returns, that a sync is invisible to reads, and that the choices of a crash
are numbered `0, …, 2^n - 1` and correspond one to one to the subsets of the `n` written keys.
-/

namespace Jyyos.Mosaic

variable {V : Type*} [DecidableEq V] [PyVal V]

/-- A step on the block device: the call and, for a crash, the choice taken. -/
inductive BlockOp (V : Type*) where
  | bwrite (key value : V)
  | sync
  | crash (choice : ℕ)

namespace BlockOp

def call : BlockOp V → DevCall V
  | bwrite key value => .bwrite key value
  | sync => .sync
  | crash _ => .crash

def label : BlockOp V → Label
  | bwrite _ _ => .text ['b', 'w', 'r', 'i', 't', 'e']
  | sync => .text ['s', 'y', 'n', 'c']
  | crash choice => .num choice

end BlockOp

namespace Devices

/-- Take a choice of the table that a call returns; `none` if it is not offered. -/
def take (d : Devices V) (c : DevCall V) (l : Label) : Option (Devices V × V) :=
  ((c.table d).get? l).map fun a => a.run d

/-- One step on the block device. -/
def exec (d : Devices V) (op : BlockOp V) : Option (Devices V) :=
  (d.take op.call op.label).map Prod.fst

end Devices

/-! ### The specification -/

/-- The block device as its users see it: `fixed k` is `S(k)` and `written k` is `W(k)`. -/
structure Blocks (V : Type*) where
  fixed : V → Option V
  written : V → Option V

namespace Blocks

/-- Nothing is stored. -/
def empty : Blocks V := ⟨fun _ => none, fun _ => none⟩

/-- The keys that have a `W(k)`. -/
def outstanding (b : Blocks V) : Set V := {k | (b.written k).isSome = true}

/-- The value that a read finds. -/
def read (b : Blocks V) (k : V) : Option V := (b.written k).or (b.fixed k)

/-- A write is outstanding until the next sync or crash. -/
def write (b : Blocks V) (k v : V) : Blocks V :=
  { b with written := Function.update b.written k (some v) }

/-- A sync fixes everything that was written. -/
def sync (b : Blocks V) : Blocks V := ⟨b.read, fun _ => none⟩

/-- A crash fixes what was written to the keys of `A` and loses the rest. -/
def crash (b : Blocks V) (A : Finset V) : Blocks V :=
  ⟨fun k => if k ∈ A then b.written k else b.fixed k, fun _ => none⟩

end Blocks

/-- The keys of the buffer that choice `i` of `sys_crash` persists. -/
def crashSubset (d : Devices V) (i : ℕ) : Finset V := Itertools.selected d.storage.buf.keys i

/-- The specification's side of a step. -/
def Blocks.step (b : Blocks V) (d : Devices V) : BlockOp V → Blocks V
  | .bwrite key value => b.write key value
  | .sync => b.sync
  | .crash choice => b.crash (crashSubset d choice)

/-- A sequence of steps with `S` and `W` kept along. -/
def track (ops : List (BlockOp V)) (s : Devices V × Blocks V) : Option (Devices V × Blocks V) :=
  ops.foldlM (fun s op => (s.1.exec op).map fun d => (d, s.2.step s.1 op)) s

/-- The dictionaries hold `S` and `W`. -/
structure Tracks (d : Devices V) (b : Blocks V) : Prop where
  persist : ∀ k, d.storage.persist.get? k = b.fixed k
  buf : ∀ k, d.storage.buf.get? k = b.written k

/-! ### The table of a crash -/

omit [PyVal V] in
theorem mem_written {d : Devices V} {b : Blocks V} (h : Tracks d b) (k : V) :
    k ∈ d.storage.buf.keys ↔ k ∈ b.outstanding := by
  show _ ↔ (b.written k).isSome = true
  rw [← h.buf, Option.isSome_iff_ne_none, ne_eq, Dict.get?_eq_none_iff, not_not]

omit [DecidableEq V] [PyVal V] in
/-- The entries of the crash table, in the order of their labels. -/
theorem entries_sysCrash (d : Devices V) :
    (sysCrash d).entries =
      (Itertools.bitTuples d.storage.buf.entries.length).zipIdx.map fun s =>
        (Label.num s.2, DevAction.crash d.storage.persist s.1) := by
  refine Dict.entries_ofList ?_
  rw [List.map_map]
  have hkeys : (Prod.fst ∘ fun s : List Bool × ℕ =>
      (Label.num s.2, DevAction.crash d.storage.persist s.1)) = Label.num ∘ Prod.snd := rfl
  rw [hkeys, ← List.map_map, List.zipIdx_map_snd]
  exact (List.nodup_range' 1).map (fun a b hab => Label.num.inj hab)

omit [DecidableEq V] [PyVal V] in
theorem keys_sysCrash (d : Devices V) :
    (sysCrash d).keys = (List.range (2 ^ d.storage.buf.keys.length)).map Label.num := by
  have hkeys : (Prod.fst ∘ fun s : List Bool × ℕ =>
      (Label.num s.2, DevAction.crash d.storage.persist s.1)) = Label.num ∘ Prod.snd := rfl
  rw [Dict.keys, entries_sysCrash, List.map_map, hkeys, ← List.map_map, List.zipIdx_map_snd,
    Itertools.length_bitTuples, ← List.range_eq_range', Dict.keys, List.length_map]

omit [DecidableEq V] [PyVal V] in
theorem get?_sysCrash (d : Devices V) {i : ℕ} (hi : i < 2 ^ d.storage.buf.keys.length) :
    (sysCrash d).get? (.num i) = some (.crash d.storage.persist
      ((Itertools.bitTuples d.storage.buf.keys.length).getD i [])) := by
  have hlen : d.storage.buf.keys.length = d.storage.buf.entries.length := List.length_map ..
  rw [hlen] at hi ⊢
  have hi' : i < (Itertools.bitTuples d.storage.buf.entries.length).length := by
    rw [Itertools.length_bitTuples]; exact hi
  rw [Dict.get?_eq_some_iff, entries_sysCrash, List.mem_map]
  refine ⟨((Itertools.bitTuples d.storage.buf.entries.length).getD i [], i), ?_, rfl⟩
  rw [List.mem_iff_getElem]
  refine ⟨i, by rw [List.length_zipIdx]; exact hi', ?_⟩
  rw [List.getElem_zipIdx, List.getD_eq_getElem _ _ hi', Nat.zero_add]

omit [PyVal V] in
theorem find_compress {es : List (V × V)} (hnd : (es.map Prod.fst).Nodup) (bits : List Bool)
    (k : V) : Dict.find k (Itertools.compress es bits) =
      if k ∈ Itertools.compress (es.map Prod.fst) bits then Dict.find k es else none := by
  have hsub := Itertools.compress_sublist es bits
  rw [← Itertools.map_compress Prod.fst]
  split_ifs with h
  · obtain ⟨e, he, rfl⟩ := List.mem_map.mp h
    rw [Dict.find_of_mem hnd (v := e.2) (hsub.subset he),
      Dict.find_of_mem ((hsub.map Prod.fst).nodup hnd) he]
  · exact Dict.find_eq_none_iff.mpr h

/-- The outcome of a crash: choice `i` persists the writes to the keys of its subset. -/
theorem exec_crash {d : Devices V} {b : Blocks V} (h : Tracks d b) {i : ℕ}
    (hi : i < 2 ^ d.storage.buf.keys.length) :
    ∃ d', d.exec (.crash i) = some d' ∧ Tracks d' (b.crash (crashSubset d i)) ∧
      d'.storage.buf = Dict.empty := by
  have hexec : d.exec (.crash i) = some (DevAction.run d (.crash d.storage.persist
      ((Itertools.bitTuples d.storage.buf.keys.length).getD i []))).1 := by
    show (((sysCrash d).get? (.num i)).map fun a => a.run d).map Prod.fst = _
    rw [get?_sysCrash d hi]
    rfl
  refine ⟨_, hexec, ⟨fun k => ?_, fun k => rfl⟩, rfl⟩
  have hnd := d.storage.buf.nodup
  show (Dict.union _ _).get? k = _
  rw [Dict.get?_union, Dict.get?_ofList (((Itertools.compress_sublist _ _).map _).nodup hnd),
    find_compress hnd]
  show _ = if k ∈ crashSubset d i then b.written k else b.fixed k
  have hmem : k ∈ crashSubset d i ↔ k ∈ Itertools.compress d.storage.buf.keys
      ((Itertools.bitTuples d.storage.buf.keys.length).getD i []) := List.mem_toFinset
  simp only [hmem]
  rw [← h.persist, ← h.buf]
  split_ifs with hk hk' hk'
  · -- a selected key is in the buffer, so its write is found first
    have hmem : k ∈ d.storage.buf.keys := (Itertools.compress_sublist _ _).subset hk
    obtain ⟨v, hv⟩ := Option.isSome_iff_exists.mp ((mem_written h k).mp hmem)
    rw [← h.buf] at hv
    show (d.storage.buf.get? k).or _ = _
    rw [hv]
    rfl
  · exact absurd hk hk'
  · exact absurd hk' hk
  · rfl

/-! ### Every step keeps the relation -/

omit [PyVal V] in
theorem tracks_init : Tracks (Devices.init : Devices V) Blocks.empty :=
  ⟨fun _ => rfl, fun _ => rfl⟩

theorem exec_bwrite (d : Devices V) (k v : V) :
    d.exec (.bwrite k v) = some (DevAction.run d (.bwrite k v)).1 := by
  simp [Devices.exec, Devices.take, BlockOp.call, BlockOp.label, DevCall.table, sysBwrite,
    Dict.get?_ofList, Dict.find]

theorem exec_sync (d : Devices V) : d.exec .sync = some (DevAction.run d .sync).1 := by
  simp [Devices.exec, Devices.take, BlockOp.call, BlockOp.label, DevCall.table, sysSync,
    Dict.get?_ofList, Dict.find]

theorem tracks_bwrite {d : Devices V} {b : Blocks V} (h : Tracks d b) (k v : V) :
    Tracks (DevAction.run d (.bwrite k v)).1 (b.write k v) := by
  refine ⟨h.persist, fun k' => ?_⟩
  show (d.storage.buf.set k v).get? k' = Function.update b.written k (some v) k'
  rw [Dict.get?_set, Function.update_apply, h.buf]

theorem tracks_sync {d : Devices V} {b : Blocks V} (h : Tracks d b) :
    Tracks (DevAction.run d .sync).1 b.sync := by
  refine ⟨fun k => ?_, fun k => rfl⟩
  show (d.storage.persist.union d.storage.buf).get? k = (b.written k).or (b.fixed k)
  rw [Dict.get?_union, h.persist, h.buf]

/-- A crash that is taken is one of the numbered choices. -/
theorem lt_of_exec_crash {d d' : Devices V} {i : ℕ} (h : d.exec (.crash i) = some d') :
    i < 2 ^ d.storage.buf.keys.length := by
  by_contra hi
  -- the labels are the numbers below `2 ^ n`, so there is no other
  have hnone : (sysCrash d).get? (.num i) = none := by
    rw [Dict.get?_eq_none_iff, keys_sysCrash, List.mem_map]
    rintro ⟨j, hj, hji⟩
    rw [List.mem_range, Label.num.inj hji] at hj
    exact hi hj
  have : d.exec (.crash i) = none := by
    show (((sysCrash d).get? (.num i)).map fun a => a.run d).map Prod.fst = _
    rw [hnone]
    rfl
  exact Option.some_ne_none d' (h ▸ this)

/-- A step of the code is a step of the specification. -/
theorem tracks_step {d d' : Devices V} {b : Blocks V} (h : Tracks d b) (op : BlockOp V)
    (hstep : d.exec op = some d') : Tracks d' (b.step d op) := by
  cases op with
  | bwrite k v =>
    rw [exec_bwrite, Option.some.injEq] at hstep
    exact hstep ▸ tracks_bwrite h k v
  | sync =>
    rw [exec_sync, Option.some.injEq] at hstep
    exact hstep ▸ tracks_sync h
  | crash i =>
    obtain ⟨d₁, hd₁, htr, -⟩ := exec_crash h (lt_of_exec_crash hstep)
    rw [hd₁, Option.some.injEq] at hstep
    exact hstep ▸ htr

/-- Every run of the code is a run of the specification. -/
theorem tracks_track (ops : List (BlockOp V)) : ∀ {s s' : Devices V × Blocks V},
    Tracks s.1 s.2 → track ops s = some s' → Tracks s'.1 s'.2 := by
  induction ops with
  | nil =>
    intro s s' h hs
    rw [track, List.foldlM_nil] at hs
    exact Option.some.inj hs ▸ h
  | cons op ops ih =>
    intro s s' h hs
    rw [track, List.foldlM_cons] at hs
    obtain ⟨s₁, hs₁, hrest⟩ := Option.bind_eq_some_iff.mp hs
    obtain ⟨d₁, hd₁, rfl⟩ := Option.map_eq_some_iff.mp hs₁
    exact ih (tracks_step h op hd₁) hrest

/-! ### The semantics -/

theorem take_bread {d : Devices V} {b : Blocks V} (h : Tracks d b) (k : V) :
    d.take (.bread k) (.text ['b', 'r', 'e', 'a', 'd']) =
      some (d, (b.read k).getD PyVal.none) := by
  have htable : d.take (.bread k) (.text ['b', 'r', 'e', 'a', 'd']) =
      some (DevAction.run d (.bread k)) := by
    simp [Devices.take, DevCall.table, sysBread, Dict.get?_ofList, Dict.find]
  rw [htable, DevAction.run, h.persist, h.buf, Blocks.read]
  cases b.written k <;> rfl

omit [DecidableEq V] [PyVal V] in
theorem read_sync (b : Blocks V) (k : V) : b.sync.read k = b.read k := rfl

omit [PyVal V] in
theorem ncard_written {d : Devices V} {b : Blocks V} (h : Tracks d b) :
    b.outstanding.ncard = d.storage.buf.keys.length := by
  have hset : b.outstanding = ↑d.storage.buf.keys.toFinset := by
    ext k
    rw [← mem_written h, Finset.mem_coe, List.mem_toFinset]
  rw [hset, Set.ncard_coe_finset, List.toFinset_card_of_nodup d.storage.buf.keys_nodup]

/-- **The semantics of the block device**, after any sequence of writes, syncs and crashes from
the empty storage that leaves the device `d`, with `S` and `W` in `b`:
* a read returns `W(k)`, else `S(k)`, else `None`, and changes nothing;
* a sync is always possible and changes no read result;
* a crash offers the labels `0, …, 2^n - 1`, for `n` keys with a `W(k)`;
* these correspond one to one to the subsets of the keys with a `W(k)`;
* the outcome of a label has `W(k)` on its subset, `S(k)` elsewhere and an empty buffer. -/
theorem blockDevice_spec (ops : List (BlockOp V)) {d : Devices V} {b : Blocks V}
    (h : track ops (Devices.init, Blocks.empty) = some (d, b)) :
    (∀ k, d.take (.bread k) (.text ['b', 'r', 'e', 'a', 'd']) =
        some (d, ((b.written k).or (b.fixed k)).getD PyVal.none)) ∧
      (∃ d', d.exec .sync = some d' ∧
        ∀ k, (d'.take (.bread k) (.text ['b', 'r', 'e', 'a', 'd'])).map Prod.snd =
          (d.take (.bread k) (.text ['b', 'r', 'e', 'a', 'd'])).map Prod.snd) ∧
      (sysCrash d).keys = (List.range (2 ^ b.outstanding.ncard)).map Label.num ∧
      Set.BijOn (crashSubset d) (Set.Iio (2 ^ b.outstanding.ncard)) {A | ↑A ⊆ b.outstanding} ∧
      ∀ i, i < 2 ^ b.outstanding.ncard → ∃ d', d.exec (.crash i) = some d' ∧
        (∀ k, d'.storage.persist.get? k =
          if k ∈ crashSubset d i then b.written k else b.fixed k) ∧
        d'.storage.buf = Dict.empty := by
  have htr : Tracks d b := tracks_track ops tracks_init h
  have hn : b.outstanding.ncard = d.storage.buf.keys.length := ncard_written htr
  refine ⟨take_bread htr, ⟨_, exec_sync d, fun k => ?_⟩, ?_, ?_, fun i hi => ?_⟩
  · rw [take_bread htr, take_bread (tracks_sync htr), read_sync]
    rfl
  · rw [hn]
    exact keys_sysCrash d
  · have hset : {A : Finset V | ↑A ⊆ b.outstanding} = {A | A ⊆ d.storage.buf.keys.toFinset} := by
      ext A
      constructor
      · intro hA k hk
        exact List.mem_toFinset.mpr ((mem_written htr k).mpr (hA hk))
      · intro hA k hk
        exact (mem_written htr k).mp (List.mem_toFinset.mp (hA hk))
    rw [hn, hset]
    exact Itertools.bijOn_selected d.storage.buf.keys_nodup
  · rw [hn] at hi
    obtain ⟨d', hd', htr', hbuf⟩ := exec_crash htr hi
    exact ⟨d', hd', htr'.persist, hbuf⟩

/-- A write that a crash persists, then writes to two keys. -/
def twoOutstanding : List (BlockOp (Option ℕ)) :=
  [.bwrite (some 1) (some 5), .crash 1, .bwrite (some 1) (some 6), .bwrite (some 2) (some 7),
    .bwrite (some 1) (some 8)]

theorem blockDevice_spec_twoOutstanding : ∃ d b,
    track twoOutstanding (Devices.init, Blocks.empty) = some (d, b) ∧
    d.storage.buf.keys.length = 2 ∧
    d.take (.bread (some 1)) (.text ['b', 'r', 'e', 'a', 'd']) = some (d, some 8) ∧
    (sysCrash d).keys = (List.range (2 ^ b.outstanding.ncard)).map Label.num :=
  ⟨_, _, rfl, rfl, (blockDevice_spec twoOutstanding rfl).1 _,
    (blockDevice_spec twoOutstanding rfl).2.2.1⟩

end Jyyos.Mosaic
