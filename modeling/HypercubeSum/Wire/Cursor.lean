import HypercubeSum.Run
import HypercubeSum.Wire.Bytes

/-!
# Reading bytes from the front

A cursor is a byte string with the place that reading has come to. A read that finds too few bytes
consumes none; an element that turns out not to be canonical has been consumed. A step back is a
read of a negative number of bytes; it can lead before the beginning, where places count from the
end.
-/

namespace HypercubeSum

/-- A place in a byte string. -/
structure Cursor where
  content : Array UInt8
  /-- The place, which begins at zero. -/
  offset : Int
deriving DecidableEq

namespace Cursor

def ofBytes (bytes : Bytes) : Cursor := ⟨bytes.toArray, 0⟩

/-- The position of a place: a negative place counts from the end, and the beginning is as far as
that goes. -/
def position (cursor : Cursor) (place : Int) : Nat :=
  if place < 0 then (place + cursor.content.size).toNat else place.toNat

/-- The bytes from a place on and before another place. -/
def slice (cursor : Cursor) (first last : Int) : Bytes :=
  (cursor.content.extract (cursor.position first) (cursor.position last)).toList

theorem slice_eq (cursor : Cursor) (first last : Int) :
    cursor.slice first last =
      (cursor.content.toList.take (cursor.position last)).drop (cursor.position first) := by
  rw [slice, Array.toList_extract, List.extract_eq_take_drop, List.drop_take]

def remaining (cursor : Cursor) : Int := cursor.content.size - cursor.offset

def take (count : Int) : Run Cursor Bytes := do
  let cursor ← get
  if cursor.remaining < count then throw (.bytesMissing count cursor.remaining)
  else
    set (⟨cursor.content, cursor.offset + count⟩ : Cursor)
    return cursor.slice cursor.offset (cursor.offset + count)

def word : Run Cursor Nat := do
  return Bytes.toNat (← take 8)

/-- The next element of a field, which has to be canonical. -/
def element (field : Modulus) : Run Cursor Scalar := do
  let value := Bytes.toNat (← take field.byteWidth)
  if value < field.val then return .element ⟨value, field⟩
  else throw (.residueNotCanonical value)

/-- The next vector of elements; the bytes left have to be enough for the announced number. -/
def vector (field : Modulus) : Run Cursor (List Scalar) := do
  let count ← word
  let cursor ← get
  if cursor.remaining < (count * field.byteWidth : Nat) then throw (.vectorTooLong count)
  else Run.replicate (element field) count

/-- Nothing may be left. -/
def finish : Run Cursor Unit := do
  let cursor ← get
  if cursor.remaining = 0 then return ()
  else throw (.bytesLeft cursor.remaining)

def readAll {α : Type} (read : Run Cursor α) (bytes : Bytes) : Except Fault α :=
  Run.outcome (do let value ← read; finish; return value) (ofBytes bytes)

end Cursor

end HypercubeSum
