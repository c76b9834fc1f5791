/-!
# The locals of a frame

All locals of a program live in one frame, each in a slot of the same width.  A local is known
by the offset of its slot below the base of the frame: the first one has the offset `slotWidth`, and
every later one lies one width beyond the one before it.

* `Locals.insert` is the only operation that hands out a slot.  It does not ask whether the name is
  there already.
* `Locals.declare` hands out a slot only for a name that is not there.
* `Locals.register` does one or the other, as the table's mode says.

Entries are never changed or removed, so an offset stays good for the whole compilation.
-/

namespace FrameLang

/-- What registering a name again does: nothing, or to give it one more slot, which is found from
then on. -/
inductive Mode
  | unique
  | shadowing
  deriving DecidableEq, Repr

def defaultSlotWidth : Nat := 8

structure Local where
  name : String
  offset : Nat
  deriving DecidableEq, Repr

def Local.listing (e : Local) : String :=
  "\t " ++ e.name ++ "\t ; offset " ++ toString e.offset ++ "\n"

/-- The table of a frame, its entries newest first. -/
structure Locals where
  slotWidth : Nat := defaultSlotWidth
  mode : Mode := .unique
  entries : List Local := []
  deriving DecidableEq, Repr

namespace Locals

def size (t : Locals) : Nat := t.entries.length

def isEmpty (t : Locals) : Bool := t.entries.isEmpty

/-- The frame space in use: the offset of the newest entry. -/
def frameSize (t : Locals) : Nat := (t.entries.head?.map Local.offset).getD 0

/-- The offset of the newest entry of a name. -/
def lookup? (t : Locals) (name : String) : Option Nat :=
  (t.entries.find? (·.name = name)).map Local.offset

/-- The offset of the next slot. -/
def nextOffset (t : Locals) : Nat := t.frameSize + t.slotWidth

def insert (t : Locals) (name : String) : Locals :=
  { t with entries := ⟨name, t.nextOffset⟩ :: t.entries }

/-- The offset that a name has, or gets when it is declared. -/
def slot (t : Locals) (name : String) : Nat := (t.lookup? name).getD t.nextOffset

/-- Gives a name the next slot, unless it has one. -/
def declare (t : Locals) (name : String) : Locals :=
  if (t.lookup? name).isSome then t else t.insert name

def register (t : Locals) (name : String) : Locals :=
  match t.mode with
  | .unique => t.declare name
  | .shadowing => t.insert name

def registerSlot (t : Locals) (name : String) : Nat :=
  match t.mode with
  | .unique => t.slot name
  | .shadowing => t.nextOffset

theorem lookup?_insert (t : Locals) (name other : String) :
    (t.insert name).lookup? other =
      if name = other then some t.nextOffset else t.lookup? other := by
  by_cases h : name = other <;> simp [lookup?, insert, h]

/-- After it is declared, a name is found where its slot was announced. -/
theorem lookup?_declare_self (t : Locals) (name : String) :
    (t.declare name).lookup? name = some (t.slot name) := by
  cases h : t.lookup? name with
  | none => simp [declare, slot, h, lookup?_insert]
  | some offset => simp [declare, slot, h]

theorem lookup?_declare_of_some {t : Locals} {name : String} {offset : Nat}
    (h : t.lookup? name = some offset) (other : String) :
    (t.declare other).lookup? name = some offset := by
  unfold declare
  split
  case isTrue => exact h
  case isFalse hn =>
    rw [lookup?_insert, if_neg, h]
    rintro rfl
    simp [h] at hn

/-- The layout as text: the number of locals and the frame size, then the locals, newest first. -/
def dump (t : Locals) : String :=
  "locals: " ++ toString t.size ++ " (frame size " ++ toString t.frameSize ++ ")\n"
    ++ String.join (t.entries.map Local.listing)

end Locals

end FrameLang
