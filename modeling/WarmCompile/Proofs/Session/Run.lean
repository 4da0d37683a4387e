import Mathlib.Data.List.Induction
import WarmCompile.Proofs.Session.Turn

/-!
Runs of a keeper, and what can be noted along them.
-/

namespace WarmCompile.Actor

variable {κ ω : Type} {service : Service κ ω} {a : Actor κ ω} {events : List (Event ω)}
  {e : Event ω}

theorem run_concat (service : Service κ ω) (a : Actor κ ω) (events : List (Event ω))
    (e : Event ω) :
    a.run service (events ++ [e]) =
      (((a.run service events).1.step service e).1,
        (a.run service events).2 ++ ((a.run service events).1.step service e).2) := by
  simp only [run, List.foldl_append, List.foldl_cons, List.foldl_nil]

theorem run_fst (service : Service κ ω) (a : Actor κ ω) (events : List (Event ω)) :
    (a.run service events).1 = events.foldl (fun a e => (a.step service e).1) a := by
  induction events using List.reverseRecOn with
  | nil => rfl
  | append_singleton events e ih =>
    simp only [run_concat, List.foldl_append, List.foldl_cons, List.foldl_nil, ih]

/-- What a run leaves in a notebook that is written in ahead of every step. -/
def notes {α : Type} (note : Actor κ ω → Event ω → List α) (service : Service κ ω)
    (a : Actor κ ω) : List (Event ω) → List α
  | [] => []
  | e :: events => note a e ++ notes note service (a.step service e).1 events

theorem notes_concat {α : Type} (note : Actor κ ω → Event ω → List α) (service : Service κ ω)
    (a : Actor κ ω) (events : List (Event ω)) (e : Event ω) :
    notes note service a (events ++ [e]) =
      notes note service a events ++ note (a.run service events).1 e := by
  rw [run_fst]
  induction events generalizing a with
  | nil => simp [notes]
  | cons e' events ih => simp only [List.cons_append, notes, ih, List.append_assoc, List.foldl_cons]

/-- The message that gets into the mailbox with an event. -/
def entering (a : Actor κ ω) : Event ω → List Letter
  | .enter call => ((a.mailbox.enter (·.call == call)).map (·.1)).toList
  | _ => []

def entered (service : Service κ ω) (a : Actor κ ω) (events : List (Event ω)) : List Letter :=
  notes entering service a events

/-- The turn that is completed with an event. -/
def completing (a : Actor κ ω) : Event ω → List (Turn ω)
  | .finish => (a.current.map .handle).toList
  | .edit change => [.edit change]
  | _ => []

def turns (service : Service κ ω) (a : Actor κ ω) (events : List (Event ω)) : List (Turn ω) :=
  notes completing service a events

def called (events : List (Event ω)) : List Letter :=
  events.filterMap fun
    | .call l => some l
    | _ => none

/-- The calls whose callers do not wait to the end. -/
def left (events : List (Event ω)) : List Nat :=
  events.filterMap fun
    | .leave call => some call
    | _ => none

def edits (events : List (Event ω)) : List (ω → ω) :=
  events.filterMap fun
    | .edit change => some change
    | _ => none

/-- All that a step can do. -/
inductive Effect (service : Service κ ω) (a : Actor κ ω) :
    Event ω → Actor κ ω → Endings → Prop where
  | await (l : Letter) (hopen : a.mailbox.closed = false) :
    Effect service a (.call l)
      { a with mailbox := { a.mailbox with waiting := a.mailbox.waiting ++ [l] } } []
  | refuse (l : Letter) (hclosed : a.mailbox.closed = true) :
    Effect service a (.call l) a [(l.call, .gone)]
  | enter (call : Nat) (l : Letter) (before after : List Letter)
    (hwaiting : a.mailbox.waiting = before ++ l :: after)
    (hentering : a.entering (.enter call) = [l]) :
    Effect service a (.enter call)
      { a with mailbox := { a.mailbox with
          queue := a.mailbox.queue ++ [l], waiting := before ++ after } } (endingOnEntry l)
  | stay (call : Nat) (hentering : a.entering (.enter call) = []) :
    Effect service a (.enter call) a []
  | leave (call : Nat) :
    Effect service a (.leave call)
      { a with
        mailbox := { a.mailbox with
          waiting := a.mailbox.waiting.filter fun l => !(l.call == call) }
        absent := call :: a.absent } []
  | take (l : Letter) (queue : List Letter) (hopen : a.mailbox.closed = false)
    (hidle : a.current = none) (hqueue : a.mailbox.queue = l :: queue)
    (hl : l.message ≠ .disconnect) :
    Effect service a .take
      { a with mailbox := { a.mailbox with queue }, current := some l } []
  | stop (halted queue : List Letter) (hopen : a.mailbox.closed = false)
    (hidle : a.current = none) (hqueue : a.mailbox.queue = halted ++ queue)
    (hhalted : ∀ l ∈ halted, l.message = .disconnect)
    (hwhy : a.cancelled = true ∨ a.mailbox.queue = [] ∨ halted ≠ []) :
    Effect service a .take
      { a with mailbox := { a.mailbox with queue := [], waiting := [], closed := true } }
      ((queue.filter (·.message ≠ .disconnect) ++ a.mailbox.waiting).map fun l => (l.call, .gone))
  | rest : Effect service a .take a []
  | finish (l : Letter) (hcurrent : a.current = some l) :
    Effect service a .finish
      { a with
        session := (service.advance (a.session, a.world) (.handle l)).1
        world := (service.advance (a.session, a.world) (.handle l)).2
        current := none } (service.reply (a.session, a.world) (.handle l))
  | pass (hcurrent : a.current = none) : Effect service a .finish a []
  | cancel : Effect service a .cancel { a with cancelled := true } []
  | desert : Effect service a .desert { a with deserted := true } []
  | edit (change : ω → ω) :
    Effect service a (.edit change) { a with world := change a.world } []

theorem effect_takeNext (service : Service κ ω) (a : Actor κ ω) :
    Effect service a .take a.takeNext.1 a.takeNext.2 := by
  unfold takeNext
  split
  · exact .rest
  · rename_i hbusy
    simp only [isStopped, Bool.or_eq_true, not_or, Bool.not_eq_true, Option.isSome_eq_false_iff,
      Option.isNone_iff_eq_none] at hbusy
    obtain ⟨hopen, hidle⟩ := hbusy
    split
    · rename_i hcancelled
      exact .stop [] a.mailbox.queue hopen hidle rfl nofun (.inl hcancelled)
    · split
      · rename_i l mailbox htake
        unfold Mailbox.take at htake
        split at htake
        · cases htake
        · rename_i l' queue hqueue
          cases htake
          split
          · rename_i hl
            exact .stop [l] queue hopen hidle hqueue (by simp [hl]) (.inr (.inr (by simp)))
          · rename_i hl
            exact .take l queue hopen hidle hqueue hl
      · rename_i htake
        unfold Mailbox.take at htake
        split at htake
        · rename_i hqueue
          split
          · have h : Effect service a .take _ _ :=
              .stop [] a.mailbox.queue hopen hidle rfl nofun (.inr (.inl hqueue))
            exact h
          · exact .rest
        · cases htake

theorem effect_enter (service : Service κ ω) (a : Actor κ ω) (call : Nat) :
    Effect service a (.enter call) (a.step service (.enter call)).1
      (a.step service (.enter call)).2 := by
  cases he : a.mailbox.enter (·.call == call) with
  | none =>
    simp only [step, he]
    exact .stay call (by simp [entering, he])
  | some found =>
    obtain ⟨l, mailbox⟩ := found
    have hentering : a.entering (.enter call) = [l] := by simp [entering, he]
    simp only [step, he]
    unfold Mailbox.enter at he
    split at he
    · obtain ⟨found, hfind, hpair⟩ := Option.map_eq_some_iff.1 he
      cases hpair
      obtain ⟨hl, before, after, hwaiting, hbefore⟩ := List.find?_eq_some_iff_append.1 hfind
      have herase : a.mailbox.waiting.eraseP (·.call == call) = before ++ after := by
        have hnot : ∀ l' ∈ before, ¬ (l'.call == call) = true := by simpa using hbefore
        rw [hwaiting, List.eraseP_append_right _ hnot, List.eraseP_cons, hl, cond_true]
      have h : Effect service a (.enter call) _ _ :=
        .enter call l before after hwaiting hentering
      rwa [← herase] at h
    · cases he

/-- A step does one of these things. -/
theorem effect_step (service : Service κ ω) (a : Actor κ ω) (e : Event ω) :
    Effect service a e (a.step service e).1 (a.step service e).2 := by
  cases e with
  | call l =>
    cases hc : a.mailbox.closed with
    | true =>
      simp only [step, isStopped, hc]
      exact .refuse l hc
    | false =>
      simp only [step, isStopped, hc]
      exact .await l hc
  | enter call => exact effect_enter service a call
  | leave call => exact .leave call
  | take => exact effect_takeNext service a
  | finish =>
    cases hc : a.current with
    | none =>
      simp only [step, finishCurrent, hc]
      exact .pass hc
    | some l =>
      simp only [step, finishCurrent, hc]
      exact .finish l hc
  | cancel => exact .cancel
  | desert => exact .desert
  | edit change => exact .edit change

end WarmCompile.Actor
