import Mathlib

/-!
# An ordered transport

What becomes of bytes between two ends is not known: a transport hands them over in
pieces of any size, late or never.  All that is asked of it is that what has been handed
over on a connection is the front of what was sent there.
-/

namespace LuaEngine.System

universe u v

inductive Transfer (Conn : Type u) (Byte : Type v) where
  | send (conn : Conn) (data : List Byte)
  | read (conn : Conn) (data : List Byte)

/-- Whether these bytes may be handed over next, after what has been sent and read. -/
abbrev Transport (Conn : Type u) (Byte : Type v) :=
  List (Transfer Conn Byte) → Conn → List Byte → Bool

section Transfers

variable {Conn : Type u} {Byte : Type v} [DecidableEq Conn]

def sentOn (conn : Conn) (history : List (Transfer Conn Byte)) : List Byte :=
  history.flatMap fun
    | .send target data => if target = conn then data else []
    | .read _ _ => []

def readOn (conn : Conn) (history : List (Transfer Conn Byte)) : List Byte :=
  history.flatMap fun
    | .send _ _ => []
    | .read source data => if source = conn then data else []

/-- What has been sent and not been handed over, and perhaps never will be. -/
def undelivered (conn : Conn) (history : List (Transfer Conn Byte)) : List Byte :=
  (sentOn conn history).drop (readOn conn history).length

/-- No connection hands over more than the front of what was sent on it. -/
def Transport.InOrder (transport : Transport Conn Byte) : Prop :=
  ∀ history conn data, transport history conn data = true →
    readOn conn history ++ data <+: sentOn conn history

/-- The transport that hands over whatever it has, and loses nothing. -/
def Transport.fifo [DecidableEq Byte] : Transport Conn Byte :=
  fun history conn data => (readOn conn history ++ data).isPrefixOf (sentOn conn history)

theorem Transport.fifo_inOrder [DecidableEq Byte] :
    (Transport.fifo : Transport Conn Byte).InOrder :=
  fun _ _ _ handed => List.isPrefixOf_iff_prefix.mp handed

@[simp]
theorem sentOn_append (conn : Conn) (first second : List (Transfer Conn Byte)) :
    sentOn conn (first ++ second) = sentOn conn first ++ sentOn conn second :=
  List.flatMap_append

@[simp]
theorem readOn_append (conn : Conn) (first second : List (Transfer Conn Byte)) :
    readOn conn (first ++ second) = readOn conn first ++ readOn conn second :=
  List.flatMap_append

theorem sentOn_send (conn target : Conn) (data : List Byte) :
    sentOn conn [.send target data] = if target = conn then data else [] := by
  simp [sentOn]

@[simp]
theorem readOn_send (conn target : Conn) (data : List Byte) :
    readOn conn [.send target data] = [] := rfl

theorem readOn_read (conn source : Conn) (data : List Byte) :
    readOn conn [.read source data] = if source = conn then data else [] := by
  simp [readOn]

theorem readOn_append_undelivered {conn : Conn} {history : List (Transfer Conn Byte)}
    (front : readOn conn history <+: sentOn conn history) :
    readOn conn history ++ undelivered conn history = sentOn conn history := by
  obtain ⟨rest, sent⟩ := front
  rw [undelivered, ← sent, List.drop_left]

end Transfers

end LuaEngine.System
