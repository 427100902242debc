import Jyyos.Algorithm.Dict
import Jyyos.Algorithm.Runs
import Jyyos.Labyrinth.Main
import Jyyos.PyStr

/-!
# The online server

`LabyrinthServer` and `handle_client` of `online.py`.  Each connection is served by a thread of its
own; what a thread does to the server it does in blocks under `server.lock`, so a run of the server
is an interleaving of these blocks.  `step` is one block: the assignment of a player at the start of
a session, a look at the map, a key, and the `finally` clause at the end.  Everything else that a
thread does is about its own connection.

The table `players` is keyed by user name, while there can be several sessions with one user name.
A session remembers its user name and its player in local variables.
-/

namespace Jyyos.Online

/-- The players whose digit occurs in the map; `none` stands for a map that could not be read. -/
def getAvailablePlayerIds (mapContent : Option Str) : List ℕ :=
  match mapContent with
  | none => []
  | some content => (List.range 10).filter fun digit => Nat.digitChar digit ∈ content

/-- Where the thread of a connection is. -/
inductive Session where
  /-- Before the first block. -/
  | connecting
  /-- In the game, with the values of `username` and `player_id`. -/
  | playing (username : Str) (playerId : ℕ)
  /-- Told that the game is full, before the `finally` clause. -/
  | rejected (username : Str)
  /-- After the `finally` clause. -/
  | closed
deriving DecidableEq, Repr

/-- The value of `username`, if the session has got so far and is not over. -/
def Session.username? : Session → Option Str
  | .playing username _ => some username
  | .rejected username => some username
  | .connecting => none
  | .closed => none

/-- The server with the sessions, which are named by elements of `S`. -/
structure Server (S : Type*) where
  availablePlayerIds : List ℕ
  players : Dict Str ℕ
  tempMapFile : CStr
  files : Labyrinth.Files
  sessions : S → Session

namespace Server

variable {S : Type*}

/-- `LabyrinthServer.__init__`, when no connection has been made: the temporary file is a copy of
the map. -/
def init (mapContent : Option Str) (tempMapFile : CStr) (files : Labyrinth.Files) :
    Server S where
  availablePlayerIds := getAvailablePlayerIds mapContent
  players := Dict.empty
  tempMapFile := tempMapFile
  files := files
  sessions _ := .connecting

/-- `get_map_state`: the program also writes the map back. -/
def getMapState (st : Server S) (env : Labyrinth.Env) : Server S :=
  { st with
    files := (Labyrinth.main env st.files
      [cstr "--map".toList, st.tempMapFile, cstr "--player".toList, cstr "0".toList]).2 }

/-- `move_player`. -/
def movePlayer (st : Server S) (env : Labyrinth.Env) (playerId : ℕ) (direction : CStr) :
    Server S :=
  { st with
    files := (Labyrinth.main env st.files
      [cstr "--map".toList, st.tempMapFile, cstr "--player".toList,
        cstr (Nat.toDigits 10 playerId), cstr "--move".toList, direction]).2 }

/-- The direction of a key, in lower case. -/
def direction? (key : Char) : Option CStr :=
  if key = 'w' then some (cstr "up".toList)
  else if key = 'a' then some (cstr "left".toList)
  else if key = 's' then some (cstr "down".toList)
  else if key = 'd' then some (cstr "right".toList)
  else none

variable [DecidableEq S]

/-- The players that nobody has. -/
def freeIds (st : Server S) : List ℕ :=
  st.availablePlayerIds.filter fun i => i ∉ st.players.entries.map Prod.snd

/-- The first block of a session: the player of the user, or the lowest free one. -/
def connect (st : Server S) (s : S) (username : Str) : Server S :=
  match st.players.get? username with
  | some playerId =>
    { st with sessions := Function.update st.sessions s (.playing username playerId) }
  | none =>
    match st.freeIds.min? with
    | none => { st with sessions := Function.update st.sessions s (.rejected username) }
    | some playerId =>
      { st with
        players := st.players.set username playerId
        sessions := Function.update st.sessions s (.playing username playerId) }

/-- The `finally` clause.  Before the first block `username` has no value, and the exception is
swallowed. -/
def close (st : Server S) (s : S) : Server S :=
  { st with
    players :=
      match (st.sessions s).username? with
      | none => st.players
      | some username =>
        if username ∈ st.players.keys then st.players.erase username else st.players
    sessions := Function.update st.sessions s .closed }

/-- A block that a thread executes. -/
inductive Event (S : Type*) where
  | connect (s : S) (username : Str)
  | look (s : S) (env : Labyrinth.Env)
  | key (s : S) (env : Labyrinth.Env) (key : Char)
  | close (s : S)

/-- One block; `none` when the thread is not at this block. -/
def step (st : Server S) : Event S → Option (Server S)
  | .connect s username =>
    match st.sessions s with
    | .connecting => some (st.connect s username)
    | _ => none
  | .look s env =>
    match st.sessions s with
    | .playing _ _ => some (st.getMapState env)
    | _ => none
  | .key s env key =>
    match st.sessions s with
    | .playing _ playerId =>
      match direction? key with
      | some direction => some (st.movePlayer env playerId direction)
      | none => some st
    | _ => none
  | .close s =>
    match st.sessions s with
    | .closed => none
    | _ => some (st.close s)

/-- The blocks of an interleaving, one after the other. -/
def run (st : Server S) (events : List (Event S)) : Option (Server S) := Runs.run step st events

end Server

end Jyyos.Online
