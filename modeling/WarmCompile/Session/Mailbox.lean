/-!
A mailbox with room for so many messages; senders that find no room wait. What is in it is taken in
the order it came in.
-/

namespace WarmCompile

structure Mailbox (α : Type) where
  capacity : Nat
  queue : List α
  /-- Messages of senders that have not got room yet. -/
  waiting : List α
  closed : Bool
  deriving Repr

namespace Mailbox

variable {α : Type}

/-- There is always room for one message. -/
def ofCapacity (capacity : Nat) : Mailbox α := ⟨max capacity 1, [], [], false⟩

def hasRoom (m : Mailbox α) : Bool :=
  m.queue.length < m.capacity

/-- A sender comes along. -/
def await (m : Mailbox α) (a : α) : Mailbox α :=
  { m with waiting := m.waiting ++ [a] }

/-- Lets the first waiting sender of the kind put its message in, if there is room. -/
def enter (m : Mailbox α) (p : α → Bool) : Option (α × Mailbox α) :=
  if m.hasRoom then
    (m.waiting.find? p).map fun a =>
      (a, { m with queue := m.queue ++ [a], waiting := m.waiting.eraseP p })
  else none

/-- Senders of the kind go away. -/
def withdraw (m : Mailbox α) (p : α → Bool) : Mailbox α :=
  { m with waiting := m.waiting.filter fun a => !p a }

/-- The message that came in first. -/
def take (m : Mailbox α) : Option (α × Mailbox α) :=
  match m.queue with
  | [] => none
  | a :: queue => some (a, { m with queue })

/-- Nothing gets in any more, and what is there is dropped. -/
def close (m : Mailbox α) : Mailbox α :=
  { m with queue := [], waiting := [], closed := true }

end Mailbox

end WarmCompile
