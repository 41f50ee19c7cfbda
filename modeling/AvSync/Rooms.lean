import AvSync.Identity

/-!
# Rooms

The member table that the relay and the signaling server share between their connections. A
member is the outbound channel of a connection, named by that connection, and a peer id is whatever
a frame says it is.
-/

namespace AvSync

/-- A connection of a server, and its outbound channel. -/
structure ConnId where
  index : ℕ
  deriving DecidableEq

/-- Room admission policy. -/
inductive RoomAuth where
  | «open»
  | token (secret : String)

/-- The members of each room. -/
abbrev Rooms : Type := BTreeMap String (BTreeMap PeerId ConnId)

namespace Rooms

variable (rooms : Rooms) (room : String) (peer : PeerId)

def members : BTreeMap PeerId ConnId := rooms[room]?.getD ∅

def lookup : Option ConnId := (rooms.members room)[peer]?

/-- `rooms.entry(room).or_default()` -/
def enter : Rooms := rooms.insert room (rooms.members room)

/-- Whether the member cap lets a peer in: a known one always. -/
def Admits (maxRoomMembers : ℕ) : Prop :=
  peer ∈ rooms.members room ∨ (rooms.members room).size < maxRoomMembers

instance (maxRoomMembers : ℕ) : Decidable (rooms.Admits room peer maxRoomMembers) :=
  inferInstanceAs (Decidable (_ ∨ _))

/-- Makes a connection's channel the one of a member. -/
def register (c : ConnId) : Rooms :=
  (rooms.enter room).modify room fun m => m.insert peer c

/-- Takes a member out, whichever connection's channel it has. -/
def unregister : Rooms := rooms.modify room fun m => m.erase peer

/-- Whom a frame of `sender` reaches: its target, or the rest of the room. -/
def recipients (sender : PeerId) : Option PeerId → List ConnId
  | some target => (rooms.lookup room target).toList
  | none => ((rooms.members room).toList.filter fun m => m.1 ≠ sender).map Prod.snd

variable {rooms room peer} {r : String} {p : PeerId} {c : ConnId}

theorem members_enter : (rooms.enter room).members r = rooms.members r := by
  unfold enter members
  rw [BTreeMap.getElem?_insert_if]
  split_ifs with h
  · subst h; rfl
  · rfl

@[simp] theorem lookup_enter : (rooms.enter room).lookup r p = rooms.lookup r p := by
  rw [lookup, members_enter, lookup]

theorem lookup_register : (rooms.register room peer c).lookup r p =
    if room = r ∧ peer = p then some c else rooms.lookup r p := by
  unfold lookup register members
  rw [BTreeMap.getElem?_modify_if, enter, BTreeMap.getElem?_insert_if]
  by_cases hr : room = r
  · subst hr
    simp [members, BTreeMap.getElem?_insert_if]
  · simp [hr]

theorem lookup_unregister : (rooms.unregister room peer).lookup r p =
    if room = r ∧ peer = p then none else rooms.lookup r p := by
  unfold lookup unregister members
  rw [BTreeMap.getElem?_modify_if]
  by_cases hr : room = r
  · subst hr
    rcases rooms[room]? with _ | m
    · simp
    · simp [BTreeMap.getElem?_erase_if]
  · simp [hr]

theorem mem_recipients {sender : PeerId} {target : Option PeerId} :
    c ∈ rooms.recipients r sender target ↔
      ∃ p, rooms.lookup r p = some c ∧ (target = some p ∨ target = none ∧ p ≠ sender) := by
  rcases target with _ | q
  · simp only [recipients, List.mem_map, List.mem_filter, decide_eq_true_eq, Prod.exists,
      Std.ExtTreeMap.mem_toList_iff_getElem?_eq_some, exists_eq_right, reduceCtorEq, false_or,
      true_and]
    exact Iff.rfl
  · simp [recipients, Option.mem_toList, eq_comm]

end Rooms

end AvSync
