import Jyyos.Online.Server
import Mathlib.Tactic.Common

/-!
# Who plays whom

Different users should play different players, and only players of the map.  The second holds in
every run (`run_held`).  The first does not: the `finally` clause of a session deletes the entry of
its user even while another session of that user goes on playing, and the player is then given to
the next user (`two_users_one_player`).

It holds as long as no session is closed while another session of its user is playing
(`run_distinct`).  Then the table of players is right about every session (`Inv.holds`), and as it
never holds a player twice (`Inv.inj`), users with the same player are the same.
-/

namespace Jyyos.Online.Server

open Runs

variable {S : Type*} [DecidableEq S]

/-! ### What a block does -/

/-- **What one block does** to the table of players and to the sessions; a look and a key only
touch the map. -/
theorem step_cases {st st' : Server S} {e : Event S} (h : st.step e = some st') :
    st'.availablePlayerIds = st.availablePlayerIds ∧
    ((∃ s username i, st.players.get? username = some i ∧
        st'.players = st.players ∧
        st'.sessions = Function.update st.sessions s (.playing username i)) ∨
      (∃ s username, st'.players = st.players ∧
        st'.sessions = Function.update st.sessions s (.rejected username)) ∨
      (∃ s username i, e = .connect s username ∧ st.players.get? username = none ∧
        i ∈ st.freeIds ∧ st'.players = st.players.set username i ∧
        st'.sessions = Function.update st.sessions s (.playing username i)) ∨
      (st'.players = st.players ∧ st'.sessions = st.sessions) ∨
      (∃ s, e = .close s ∧ st' = st.close s)) := by
  cases e with
  | connect s username =>
    rw [step] at h
    split at h
    · cases h
      unfold connect
      cases hget : st.players.get? username with
      | some i => exact ⟨rfl, Or.inl ⟨s, username, i, hget, rfl, rfl⟩⟩
      | none =>
        cases hmin : st.freeIds.min? with
        | none => exact ⟨rfl, Or.inr (Or.inl ⟨s, username, rfl, rfl⟩)⟩
        | some i =>
          have hfree : i ∈ st.freeIds := List.min?_mem hmin
          exact ⟨rfl, Or.inr (Or.inr (Or.inl ⟨s, username, i, rfl, hget, hfree, rfl, rfl⟩))⟩
    · cases h
  | look s env =>
    rw [step] at h
    split at h
    · cases h
      exact ⟨rfl, Or.inr (Or.inr (Or.inr (Or.inl ⟨rfl, rfl⟩)))⟩
    · cases h
  | key s env key =>
    rw [step] at h
    split at h
    · split at h
      · cases h
        exact ⟨rfl, Or.inr (Or.inr (Or.inr (Or.inl ⟨rfl, rfl⟩)))⟩
      · cases h
        exact ⟨rfl, Or.inr (Or.inr (Or.inr (Or.inl ⟨rfl, rfl⟩)))⟩
    · cases h
  | close s =>
    rw [step] at h
    split at h
    · cases h
    · cases h
      exact ⟨rfl, Or.inr (Or.inr (Or.inr (Or.inr ⟨s, rfl, rfl⟩)))⟩

theorem get?_close (st : Server S) (s : S) (username : Str) :
    (st.close s).players.get? username =
      if (st.sessions s).username? = some username then none else st.players.get? username := by
  unfold close
  dsimp only
  cases hname : (st.sessions s).username? with
  | none => rfl
  | some u =>
    dsimp only
    by_cases hmem : u ∈ st.players.keys
    · rw [if_pos hmem, Dict.get?_erase]
      simp only [Option.some.injEq, eq_comm]
    · -- there is nothing to delete
      rw [if_neg hmem]
      split_ifs with heq
      · cases heq
        exact Dict.get?_eq_none_iff.mpr hmem
      · rfl

omit [DecidableEq S] in
theorem get?_ne_of_mem_freeIds {st : Server S} {i : ℕ} (h : i ∈ st.freeIds) (username : Str) :
    st.players.get? username ≠ some i := by
  intro hget
  have hmem := Dict.get?_eq_some_iff.mp hget
  have hnot := (List.mem_filter.mp h).2
  exact of_decide_eq_true hnot (List.mem_map_of_mem hmem)

/-- An entry of the table was there before, or is for the user who has just connected. -/
theorem entry_of_step {st st' : Server S} {e : Event S} (h : st.step e = some st')
    {username : Str} {i : ℕ} (hget : st'.players.get? username = some i) :
    st.players.get? username = some i ∨ (i ∈ st.freeIds ∧ ∃ s, e = .connect s username) := by
  obtain ⟨-, hcases⟩ := step_cases h
  rcases hcases with ⟨s, u, j, -, hp, -⟩ | ⟨s, u, hp, -⟩ | ⟨s, u, j, he, -, hfree, hp, -⟩ |
    ⟨hp, -⟩ | ⟨s, -, rfl⟩
  · exact Or.inl (hp ▸ hget)
  · exact Or.inl (hp ▸ hget)
  · rw [hp, Dict.get?_set] at hget
    split_ifs at hget with hu
    · cases hget
      exact Or.inr ⟨hfree, s, hu ▸ he⟩
    · exact Or.inl hget
  · exact Or.inl (hp ▸ hget)
  · rw [get?_close] at hget
    split_ifs at hget
    exact Or.inl hget

omit [DecidableEq S] in
/-- A session that plays after one session has moved on is that one, or played before. -/
theorem playing_update [DecidableEq S] {sessions : S → Session} {s t : S} {x : Session}
    {username : Str} {i : ℕ} (h : Function.update sessions s x t = .playing username i) :
    x = .playing username i ∨ sessions t = .playing username i := by
  by_cases hts : t = s
  · rw [hts, Function.update_self] at h
    exact Or.inl h
  · rw [Function.update_of_ne hts] at h
    exact Or.inr h

/-- A session that plays did so before, or has its player from the table. -/
theorem session_of_step {st st' : Server S} {e : Event S} (h : st.step e = some st') {t : S}
    {username : Str} {i : ℕ} (hplay : st'.sessions t = .playing username i) :
    st.sessions t = .playing username i ∨ st'.players.get? username = some i := by
  obtain ⟨-, hcases⟩ := step_cases h
  rcases hcases with ⟨s, u, j, hget, hp, hs⟩ | ⟨s, u, -, hs⟩ | ⟨s, u, j, -, -, -, hp, hs⟩ |
    ⟨-, hs⟩ | ⟨s, -, rfl⟩
  · rw [hs] at hplay
    refine (playing_update hplay).symm.imp_right fun heq => ?_
    cases heq
    rw [hp, hget]
  · rw [hs] at hplay
    exact Or.inl ((playing_update hplay).resolve_left nofun)
  · rw [hs] at hplay
    refine (playing_update hplay).symm.imp_right fun heq => ?_
    cases heq
    rw [hp, Dict.get?_set_self]
  · exact Or.inl (hs ▸ hplay)
  · exact Or.inl ((playing_update hplay).resolve_left nofun)

theorem sessions_of_close {st st' : Server S} {s : S} (h : st.step (.close s) = some st') :
    st'.sessions s = .closed := by
  rw [step] at h
  split at h
  · cases h
  · cases h
    exact Function.update_self ..

/-- An entry stays unless a session of the user is closed. -/
theorem entry_step {st st' : Server S} {e : Event S} (h : st.step e = some st')
    {username : Str} {i : ℕ} (hget : st.players.get? username = some i)
    (hclose : ∀ s, e = .close s → (st.sessions s).username? ≠ some username) :
    st'.players.get? username = some i := by
  obtain ⟨-, hcases⟩ := step_cases h
  rcases hcases with ⟨s, u, j, -, hp, -⟩ | ⟨s, u, hp, -⟩ | ⟨s, u, j, -, hnone, -, hp, -⟩ |
    ⟨hp, -⟩ | ⟨s, he, rfl⟩
  · rw [hp, hget]
  · rw [hp, hget]
  · -- a new entry is made only for a user without one
    have hne : username ≠ u := by
      rintro rfl
      rw [hnone] at hget
      cases hget
    rw [hp, Dict.get?_set_of_ne _ hne, hget]
  · rw [hp, hget]
  · rw [get?_close, if_neg (hclose s he), hget]

/-! ### Players of the map -/

/-- All players given are players of the map. -/
structure Held (mapContent : Option Str) (st : Server S) : Prop where
  available : st.availablePlayerIds = getAvailablePlayerIds mapContent
  table : ∀ username i, st.players.get? username = some i → i ∈ st.availablePlayerIds
  session : ∀ s username i, st.sessions s = .playing username i → i ∈ st.availablePlayerIds

theorem Held.step {mapContent : Option Str} {st st' : Server S} {e : Event S}
    (hst : Held mapContent st) (h : st.step e = some st') : Held mapContent st' := by
  have hav := (step_cases h).1
  have htable : ∀ username i, st'.players.get? username = some i →
      i ∈ st.availablePlayerIds := by
    intro username i hget
    rcases entry_of_step h hget with hold | ⟨hfree, -⟩
    · exact hst.table username i hold
    · exact (List.mem_filter.mp hfree).1
  refine ⟨hav.trans hst.available, fun username i hget => hav ▸ htable username i hget, ?_⟩
  intro s username i hplay
  rw [hav]
  rcases session_of_step h hplay with hold | hget
  · exact hst.session s username i hold
  · exact htable username i hget

/-- The players of the map are its digits. -/
theorem mem_getAvailablePlayerIds {mapContent : Option Str} {i : ℕ} :
    i ∈ getAvailablePlayerIds mapContent ↔
      i < 10 ∧ ∃ content, mapContent = some content ∧ Nat.digitChar i ∈ content := by
  cases mapContent with
  | none => simp [getAvailablePlayerIds]
  | some content => simp [getAvailablePlayerIds]

/-- **Every player held is a digit of the map**, in every run. -/
theorem run_held {mapContent : Option Str} {tempMapFile : CStr} {files : Labyrinth.Files}
    {events : List (Event S)} {st : Server S}
    (hrun : (init mapContent tempMapFile files).run events = some st) {s : S} {username : Str}
    {i : ℕ} (hplay : st.sessions s = .playing username i) :
    i < 10 ∧ ∃ content, mapContent = some content ∧ Nat.digitChar i ∈ content := by
  have hinit : Held mapContent (init mapContent tempMapFile files : Server S) :=
    ⟨rfl, nofun, nofun⟩
  have hst : Held mapContent st :=
    run_invariant (fun _ _ _ hst _ h => hst.step h) hinit
      (Guarded.of_forall (fun _ _ => trivial) events _) hrun
  rw [← mem_getAvailablePlayerIds, ← hst.available]
  exact hst.session s username i hplay

/-! ### Different users, different players -/

/-- A block does not close a session while another session of its user is playing. -/
def SoleSession (st : Server S) : Event S → Prop
  | .close s => ∀ username, (st.sessions s).username? = some username →
      ∀ t, t ≠ s → ∀ i, st.sessions t ≠ .playing username i
  | _ => True

/-- The table is right about the sessions, and has no player twice. -/
structure Inv (st : Server S) : Prop where
  holds : ∀ s username i, st.sessions s = .playing username i →
    st.players.get? username = some i
  inj : ∀ u v i, st.players.get? u = some i → st.players.get? v = some i → u = v

theorem Inv.step {st st' : Server S} {e : Event S} (hst : Inv st) (hsole : SoleSession st e)
    (h : st.step e = some st') : Inv st' where
  holds t username i hplay := by
    rcases session_of_step h hplay with hold | hget
    · apply entry_step h (hst.holds t username i hold)
      rintro s rfl hname
      -- the session closed is not `t`, which goes on playing
      have hne : t ≠ s := by
        rintro rfl
        rw [sessions_of_close h] at hplay
        cases hplay
      exact hsole username hname t hne i hold
    · exact hget
  inj u v i hu hv := by
    rcases entry_of_step h hu with hu' | ⟨hfree, s, he⟩
    · rcases entry_of_step h hv with hv' | ⟨hfree, -⟩
      · exact hst.inj u v i hu' hv'
      · exact absurd hu' (get?_ne_of_mem_freeIds hfree u)
    · rcases entry_of_step h hv with hv' | ⟨-, s', he'⟩
      · exact absurd hv' (get?_ne_of_mem_freeIds hfree v)
      · cases he.symm.trans he'
        rfl

/-- **Different users have different players**, and all are players of the map, in every state of
a run in which no session is closed while another session of its user is playing. -/
theorem run_distinct {mapContent : Option Str} {tempMapFile : CStr} {files : Labyrinth.Files}
    {events : List (Event S)}
    (hsole : Guarded step SoleSession (init mapContent tempMapFile files) events) {n : ℕ}
    {st : Server S}
    (hrun : (init mapContent tempMapFile files).run (events.take n) = some st) :
    (∀ s t u v i j, st.sessions s = .playing u i → st.sessions t = .playing v j → u ≠ v →
      i ≠ j) ∧
    (∀ s u i, st.sessions s = .playing u i →
      i < 10 ∧ ∃ content, mapContent = some content ∧ Nat.digitChar i ∈ content) := by
  have hinit : Inv (init mapContent tempMapFile files : Server S) := ⟨nofun, nofun⟩
  have hst : Inv st :=
    run_invariant (fun _ _ _ hst hs h => hst.step hs h) hinit (hsole.take n) hrun
  refine ⟨?_, fun s u i hplay => run_held hrun hplay⟩
  rintro s t u v i _ hs ht hne rfl
  exact hne (hst.inj u v i (hst.holds s u i hs) (hst.holds t v i ht))

/-- Two users come, and the first one goes. -/
def politeRun : List (Event Bool) :=
  [.connect false "alice".toList, .connect true "bob".toList, .close false]

theorem politeRun_guarded :
    Guarded step SoleSession (init (some "01".toList) [] fun _ => none) politeRun := by
  apply Guarded.cons trivial rfl
  apply Guarded.cons trivial rfl
  refine Guarded.cons ?_ rfl trivial
  intro username hname t ht i hplay
  cases t with
  | false => exact ht rfl
  | true =>
    have halice : "alice".toList = username := Option.some.inj hname
    have hbob : "bob".toList = username := (Session.playing.inj hplay).1
    exact absurd (halice.trans hbob.symm) (by decide)

theorem run_distinct_politeRun :
    ∃ st : Server Bool,
      (init (some "01".toList) [] fun _ => none).run (politeRun.take 2) = some st ∧
      st.sessions false = .playing "alice".toList 0 ∧ st.sessions true = .playing "bob".toList 1 ∧
      (∀ s t u v i j, st.sessions s = .playing u i → st.sessions t = .playing v j → u ≠ v →
        i ≠ j) ∧
      (∀ s u i, st.sessions s = .playing u i →
        i < 10 ∧ ∃ content, some "01".toList = some content ∧ Nat.digitChar i ∈ content) :=
  ⟨_, rfl, by decide, by decide, run_distinct (n := 2) politeRun_guarded rfl⟩

/-- A user connects twice and leaves one of the sessions; the next user gets the player that the
other session is still playing. -/
theorem two_users_one_player :
    ∃ st : Server ℕ,
      (init (some "01".toList) [] fun _ => none).run
        [.connect 0 "alice".toList, .connect 1 "alice".toList, .close 0,
          .connect 2 "bob".toList] = some st ∧
      st.sessions 1 = .playing "alice".toList 0 ∧ st.sessions 2 = .playing "bob".toList 0 :=
  ⟨_, rfl, by decide, by decide⟩

end Jyyos.Online.Server
