import ConsensusLab.Foundation.Json
import ConsensusLab.KV.Store
import Mathlib.Data.Finset.Sort
import Mathlib.Data.String.Basic

/-!
# Commands and snapshots as JSON texts

What `json.Marshal` writes for a command and for a map of strings, and what `json.Unmarshal`
makes of any bytes: names of fields are compared without regard to case, members that are
unknown are ignored, null leaves a field as it is, and a member of another type is an error.
-/

namespace ConsensusLab.KV

open Foundation
open Raft (Bytes)

/-- `foldName` for one character: its upper case if that is an ASCII letter. Two characters outside ASCII have one. -/
def foldRune (c : Char) : Char :=
  if 0x61 ≤ c.toNat ∧ c.toNat ≤ 0x7A then Char.ofNat (c.toNat - 0x20)
  else if c.toNat = 0x17F then 'S'
  else if c.toNat = 0x212A then 'K'
  else c

/-- Store a value in a string. -/
def storeText (old : String) : Json → Option String
  | .null => some old
  | .string text => some (String.ofList text)
  | .bool _ | .number _ | .array _ | .object _ => none

section Commands

/-- The members of a command; an empty value is omitted. -/
def commandMembers (cmd : Command) : List (List Char × List Char) :=
  ("type".toList, cmd.type.text.toList) :: ("key".toList, cmd.key.toList) ::
    if cmd.value = "" then [] else [("value".toList, cmd.value.toList)]

/-- Store a member in a command. -/
def storeMember (cmd : Command) (m : List Char × Json) : Option Command :=
  if m.1.map foldRune = "TYPE".toList then
    (storeText cmd.type.text m.2).map fun text => { cmd with type := .ofText text }
  else if m.1.map foldRune = "KEY".toList then (storeText cmd.key m.2).map fun text => { cmd with key := text }
  else if m.1.map foldRune = "VALUE".toList then (storeText cmd.value m.2).map fun text => { cmd with value := text }
  else some cmd

/-- The zero value. -/
def zeroCommand : Command := { type := .ofText "", key := "", value := "" }

/-- The command of a JSON value. -/
def commandOf : Json → Option Command
  | .null => some zeroCommand
  | .object members => members.foldlM storeMember zeroCommand
  | .bool _ | .number _ | .string _ | .array _ => none

/-- The members of a command are stored as they were. -/
theorem commandOf_commandMembers (cmd : Command) :
    commandOf (.object ((commandMembers cmd).map fun m => (m.1, .string m.2))) = some cmd := by
  have htype : ∀ c text, storeMember c ("type".toList, .string text) =
      some { c with type := .ofText (String.ofList text) } := fun _ _ => rfl
  have hkey : ∀ c text, storeMember c ("key".toList, .string text) = some { c with key := String.ofList text } :=
    fun _ _ => rfl
  have hvalue : ∀ c text, storeMember c ("value".toList, .string text) = some { c with value := String.ofList text } :=
    fun _ _ => rfl
  obtain ⟨type, key, value⟩ := cmd
  by_cases hempty : value = ""
  · simp only [commandOf, commandMembers, if_pos hempty, List.map_cons, List.map_nil, List.foldlM_cons, List.foldlM_nil,
      htype, hkey, Option.bind_eq_bind, Option.bind_some, String.ofList_toList, CommandType.ofText_text]
    rw [hempty]
    rfl
  · simp only [commandOf, commandMembers, if_neg hempty, List.map_cons, List.map_nil, List.foldlM_cons, List.foldlM_nil,
      htype, hkey, hvalue, Option.bind_eq_bind, Option.bind_some, String.ofList_toList, CommandType.ofText_text]
    rfl

example : Json.writeObject (commandMembers { type := .delete, key := "a<b", value := "" }) =
    "\x7b\"type\":\"delete\",\"key\":\"a\\u003cb\"\x7d".toList := by decide

example : commandOf (.object [("Key".toList, .string ['x']), ("value".toList, .null), ("ttl".toList, .number ['9'])]) =
    some { zeroCommand with key := "x" } := by decide

end Commands

section Maps

/-- The keys of a map in order, with their values. -/
def sortedEntries (data : StringMap) : List (String × String) :=
  (data.keys.sort (· ≤ ·)).map fun key => (key, (data.lookup key).getD "")

/-- Store a member in a map. -/
def storeEntry (data : StringMap) (m : List Char × Json) : Option StringMap :=
  (storeText "" m.2).map fun text => data.insert (String.ofList m.1) text

/-- The map of a JSON value; null is Go's nil. -/
def mapOf : Json → Option (Option StringMap)
  | .null => some none
  | .object members => (members.foldlM storeEntry ∅).map some
  | .bool _ | .number _ | .string _ | .array _ => none

/-- Storing entries whose values are a function of their keys. -/
theorem lookup_storeEntries (keys : List String) (f : String → String) (data : StringMap) :
    ∃ stored, (keys.map fun k => (k.toList, Json.string (f k).toList)).foldlM storeEntry data = some stored ∧
      ∀ key, stored.lookup key = if key ∈ keys then some (f key) else data.lookup key := by
  induction keys generalizing data with
  | nil => exact ⟨data, rfl, fun key => by simp⟩
  | cons k keys ih =>
    obtain ⟨stored, hstored, hlookup⟩ := ih (data.insert k (f k))
    refine ⟨stored, ?_, fun key => ?_⟩
    · simpa [storeEntry, storeText] using hstored
    · rw [hlookup]
      by_cases hkey : key = k
      · subst hkey
        simp
      · simp [hkey]

/-- The entries of a map are stored as they were. -/
theorem mapOf_sortedEntries (data : StringMap) :
    mapOf (.object ((sortedEntries data).map fun entry => (entry.1.toList, .string entry.2.toList))) =
      some (some data) := by
  obtain ⟨stored, hstored, hlookup⟩ :=
    lookup_storeEntries (data.keys.sort (· ≤ ·)) (fun key => (data.lookup key).getD "") ∅
  have hsame : stored = data := by
    apply Finmap.ext_lookup
    intro key
    rw [hlookup]
    cases hvalue : data.lookup key with
    | none => simp [Finmap.mem_keys, Finmap.lookup_eq_none.mp hvalue]
    | some value =>
      have hmem : key ∈ data := Finmap.mem_iff.mpr ⟨value, hvalue⟩
      simp [Finmap.mem_keys, hmem]
  rw [mapOf, sortedEntries, List.map_map]
  change (List.foldlM storeEntry ∅ _).map some = _
  exact (congrArg (Option.map some) hstored).trans (by rw [hsame, Option.map_some])

end Maps

/-- `encoding/json`. -/
def jsonCodec : Codec where
  marshalCommand cmd := Json.write (commandMembers cmd)
  unmarshalCommand raw := (Json.parse raw).bind commandOf
  marshalMap data := Json.write ((sortedEntries data).map fun entry => (entry.1.toList, entry.2.toList))
  unmarshalMap raw := (Json.parse raw).bind mapOf
  unmarshalCommand_marshal cmd := by rw [Json.parse_write, Option.bind_some, commandOf_commandMembers]
  unmarshalMap_marshal data := by
    rw [Json.parse_write, Option.bind_some, List.map_map]
    exact mapOf_sortedEntries data
  marshalMap_ne_nil data h := by
    have hread := Json.parse_write ((sortedEntries data).map fun entry => (entry.1.toList, entry.2.toList))
    rw [h] at hread
    cases hread

end ConsensusLab.KV
