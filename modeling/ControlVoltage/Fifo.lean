/-!
# Bounded queues

A first-in first-out queue that never holds more than its capacity. When it is full, `push?` turns
the new item away and `pushEvicting` makes room by discarding the oldest one.
-/

namespace ControlVoltage

/-- A queue with a capacity; the oldest item is first. -/
structure Fifo (α : Type) where
  capacity : Nat
  items : List α

namespace Fifo

variable {α : Type}

def empty (capacity : Nat) : Fifo α := ⟨capacity, []⟩

def isFull (q : Fifo α) : Bool := q.capacity ≤ q.items.length

/-- Adds an item, unless the queue is full. -/
def push? (q : Fifo α) (a : α) : Option (Fifo α) :=
  if q.isFull then none else some { q with items := q.items ++ [a] }

/-- Adds an item if there is room for it, and otherwise leaves the queue as it is. -/
def offer (q : Fifo α) (a : α) : Fifo α := (q.push? a).getD q

/-- Adds an item; the oldest one is discarded when the queue is full. -/
def pushEvicting (q : Fifo α) (a : α) : Fifo α :=
  if q.isFull then { q with items := q.items.tail ++ [a] } else { q with items := q.items ++ [a] }

/-- Takes the oldest item. -/
def pop? (q : Fifo α) : Option (α × Fifo α) :=
  match q.items with
  | [] => none
  | a :: rest => some (a, { q with items := rest })

def clear (q : Fifo α) : Fifo α := { q with items := [] }

end Fifo

end ControlVoltage
