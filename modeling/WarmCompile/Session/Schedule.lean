import WarmCompile.Session.Actor

/-!
One way to order what can happen: senders get in as they came, and the keeper goes on until there is
nothing left to do.
-/

namespace WarmCompile.Actor

variable {κ ω : Type}

/-- Lets waiting senders in while there is room, first come first served. -/
def enterAll (service : Service κ ω) (a : Actor κ ω) : Actor κ ω × Endings :=
  a.run service ((a.mailbox.waiting.take (a.mailbox.capacity - a.mailbox.queue.length)).map
    fun l => .enter l.call)

/-- Whether a message is dealt with on the spot. -/
def isBrief (session : Option (Session κ)) : Message → Bool
  | .init params => (ProjectConfig.ofInit? params.project params.library).isNone
  | .compile _ => session.isNone
  | .disconnect => true

/-- Handles messages up to and with the first one that takes its time. -/
def handleSome (service : Service κ ω) : Nat → Actor κ ω → Actor κ ω × Endings
  | 0, a => (a, [])
  | n + 1, a =>
    let (a, taken) := a.step service .take
    match a.current with
    | none => (a, taken)
    | some l =>
      let brief := isBrief a.session l.message
      let (a, ended) := a.step service .finish
      if brief then
        let (a, more) := handleSome service n a
        (a, taken ++ ended ++ more)
      else (a, taken ++ ended)

/-- Rounds of senders and keeper in turn. -/
def rounds (service : Service κ ω) : Nat → Actor κ ω → Actor κ ω × Endings
  | 0, a => (a, [])
  | n + 1, a =>
    let (a, entered) := a.enterAll service
    let (a, ended) := handleSome service (a.mailbox.queue.length + 1) a
    let (a, more) := rounds service n a
    (a, entered ++ ended ++ more)

/-- Goes on until nothing is left to do. -/
def settle (service : Service κ ω) (a : Actor κ ω) : Actor κ ω × Endings :=
  rounds service (a.mailbox.queue.length + a.mailbox.waiting.length + 1) a

/-- Lets events happen and sees to what they call for. -/
def after (service : Service κ ω) (events : List (Event ω)) (a : Actor κ ω) :
    Actor κ ω × Endings :=
  let (a, ended) := a.run service events
  let (a, more) := a.settle service
  (a, ended ++ more)

end WarmCompile.Actor
