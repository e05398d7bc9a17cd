import ConsensusLab.Raft.Types
import Mathlib.Data.Finmap

/-!
# The key-value store

Commands, the store that applies them, and its snapshots. The encoding is a parameter:
it is asked only that decoding undoes encoding, for commands and for maps, and that no map
is encoded by the empty byte sequence; the JSON texts are one such encoding. Strings are
valid UTF-8, as Lean's are. A store built by applying one command after another from the empty
store is what the rest of the development compares all others with.
-/

namespace ConsensusLab.KV

open Raft (Bytes)

/-- `CommandType`: the two operations, and every other text, which no operation has. -/
inductive CommandType
  | put
  | delete
  | unknown (name : String) (hput : name ≠ "put") (hdelete : name ≠ "delete")
  deriving DecidableEq, Repr

namespace CommandType

/-- The text of a command type. -/
def text : CommandType → String
  | put => "put"
  | delete => "delete"
  | unknown name _ _ => name

/-- The command type of a text. -/
def ofText (name : String) : CommandType :=
  if hput : name = "put" then put
  else if hdelete : name = "delete" then delete
  else unknown name hput hdelete

/-- A command type is determined by its text. -/
theorem ofText_text (type : CommandType) : ofText type.text = type := by
  cases type with
  | put => rfl
  | delete => simp [text, ofText]
  | unknown name hput hdelete => simp [text, ofText, hput, hdelete]

end CommandType

/-- The serialized operation applied to the KV store. -/
structure Command where
  type : CommandType
  key : String
  value : String
  deriving DecidableEq, Repr

/-- A Go map from strings to strings. -/
abbrev StringMap := Finmap fun _ : String => String

/-- What is used of `encoding/json`. Decoding fails with `none`; a map may also decode to Go's nil. -/
structure Codec where
  marshalCommand : Command → Bytes
  unmarshalCommand : Bytes → Option Command
  marshalMap : StringMap → Bytes
  unmarshalMap : Bytes → Option (Option StringMap)
  unmarshalCommand_marshal : ∀ cmd, unmarshalCommand (marshalCommand cmd) = some cmd
  unmarshalMap_marshal : ∀ data, unmarshalMap (marshalMap data) = some (some data)
  marshalMap_ne_nil : ∀ data, marshalMap data ≠ []

/-- An in-memory key-value state machine. -/
structure Store where
  data : StringMap
  deriving DecidableEq

/-- `NewStore`. -/
def newStore : Store := { data := ∅ }

namespace Store

/-- `Get`. -/
def get (s : Store) (key : String) : Option String := s.data.lookup key

/-- `applyPut`. -/
def applyPut (s : Store) (key value : String) : Store := { data := s.data.insert key value }

/-- `applyDelete`. -/
def applyDelete (s : Store) (key : String) : Store := { data := s.data.erase key }

/-- The switch in `Apply`: command types it does not know change nothing. -/
def perform (s : Store) (cmd : Command) : Store :=
  match cmd.type with
  | .put => s.applyPut cmd.key cmd.value
  | .delete => s.applyDelete cmd.key
  | .unknown .. => s

/-- `Apply`; `none` is the decoder's error. -/
def apply (codec : Codec) (s : Store) (raw : Bytes) : Option Store :=
  (codec.unmarshalCommand raw).map s.perform

/-- `Snapshot`. -/
def snapshot (codec : Codec) (s : Store) : Bytes := codec.marshalMap s.data

/-- `RestoreSnapshot`, which keeps nothing of the store it is called on; `none` is the decoder's
error. -/
def restoreSnapshot (codec : Codec) (raw : Bytes) : Option Store :=
  if raw.length = 0 then some newStore
  else (codec.unmarshalMap raw).map fun restored => { data := restored.getD ∅ }

end Store

/-- The store after these commands, applied in order to the empty store. -/
def replay (codec : Codec) (commands : List Bytes) : Option Store :=
  commands.foldlM (fun s raw => s.apply codec raw) newStore

variable (codec : Codec)

/-- A snapshot restores the store it was taken of. -/
theorem restoreSnapshot_snapshot (s : Store) :
    Store.restoreSnapshot codec (s.snapshot codec) = some s := by
  have hlength : (s.snapshot codec).length ≠ 0 := by
    simpa [Store.snapshot] using codec.marshalMap_ne_nil s.data
  simp only [Store.restoreSnapshot, if_neg hlength]
  simp [Store.snapshot, codec.unmarshalMap_marshal]

/-- One more command. -/
theorem replay_concat (commands : List Bytes) (raw : Bytes) :
    replay codec (commands ++ [raw]) = (replay codec commands).bind fun s => s.apply codec raw := by
  simp [replay, List.foldlM_append]

/-- What a command says about a key: its new value, that it has none, or nothing. -/
def Command.writes (cmd : Command) (key : String) : Option (Option String) :=
  if cmd.key = key then
    match cmd.type with
    | .put => some (some cmd.value)
    | .delete => some none
    | .unknown .. => none
  else none

/-- Performing a command changes what it writes. -/
theorem get_perform (s : Store) (cmd : Command) (key : String) :
    (s.perform cmd).get key = (cmd.writes key).getD (s.get key) := by
  obtain ⟨type, k, value⟩ := cmd
  by_cases hkey : k = key
  · subst hkey
    cases type with
    | put => simp [Store.perform, Store.applyPut, Store.get, Command.writes]
    | delete => simp [Store.perform, Store.applyDelete, Store.get, Command.writes]
    | unknown => simp [Store.perform, Command.writes]
  · cases type with
    | put => simp [Store.perform, Store.applyPut, Store.get, Command.writes, hkey, Ne.symm hkey]
    | delete => simp [Store.perform, Store.applyDelete, Store.get, Command.writes, hkey, Ne.symm hkey]
    | unknown => simp [Store.perform, Command.writes, hkey]

end ConsensusLab.KV
