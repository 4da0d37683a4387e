import Mathlib.Data.List.Nodup
import WarmCompile.Proofs.Client.Multiplexed
import WarmCompile.Proofs.Except

/-!
Callers that share a client, whatever its peer does: lines come in any order and say anything, what
goes out may fail to, and the connection may end at any moment. A caller draws the number of its
call first and hands its request over to the multiplexer after that, so that calls can overtake one
another in between.
-/

namespace WarmCompile

open Multiplexer (idOf)

structure Callers where
  client : Multiplexer
  /-- Calls that have a number, and whose request is still with the caller. -/
  drawn : List Outbound
  results : List (Nat × Multiplexer.Result)

namespace Callers

def start : Callers := ⟨.start, [], []⟩

/-- What can happen, in any order. -/
inductive Event where
  /-- A caller draws the next number. -/
  | draw (params : Call)
  /-- The caller with that number hands its request over. -/
  | submit (call : Nat)
  | register
  /-- A line arrives, if it is text. -/
  | line (text : Option String)
  | close
  /-- The peer does not read any more. -/
  | hangUp
  /-- What is written gets through again. -/
  | recover

namespace Event

def isDraw : Event → Bool
  | .draw _ => true
  | _ => false

/-- The response that comes with an event. -/
def response? : Event → Option Response
  | .line (some text) => (Response.parse text).toOption
  | _ => none

/-- The stream ends, or fails. -/
def Ends : Event → Prop
  | .line none | .close => True
  | _ => False

/-- After the event, a call that waited for a response does not wait any more. -/
def Settles (n : Nat) (e : Event) : Prop :=
  e.Ends ∨ ∃ r, e.response? = some r ∧ r.id = idOf n

theorem response?_line {text : String} {r : Response} :
    (line (some text)).response? = some r ↔ Response.parse text = .ok r :=
  toOption_eq_some

theorem Ends.isDraw_eq {e : Event} (h : e.Ends) : e.isDraw = false := by
  cases e with
  | draw params => cases h
  | _ => rfl

end Event

def multiplex (s : Callers) (e : Multiplexer.Event) : Callers :=
  let (client, effect) := s.client.step e
  { s with client, results := s.results ++ effect.results }

def draw (s : Callers) (params : Call) : Callers :=
  { s with
    client := { s.client with next := s.client.next + 1 }
    drawn := s.drawn ++ [⟨s.client.next, params⟩] }

/-- The call is issued under the number that it has drawn. -/
def submit (s : Callers) (call : Nat) : Callers :=
  match s.drawn.find? (·.call == call) with
  | none => s
  | some o =>
    let issued := { s with
      client := { s.client with next := o.call }
      drawn := s.drawn.erase o }.multiplex (.issue o.params)
    { issued with client := { issued.client with next := s.client.next } }

def step (s : Callers) : Event → Callers
  | .draw params => s.draw params
  | .submit call => s.submit call
  | .register => s.multiplex .register
  | .line text => s.multiplex (.line text)
  | .close => s.multiplex .close
  | .hangUp => s.multiplex .hangUp
  | .recover => { s with client := { s.client with deaf := false } }

def run (s : Callers) (events : List Event) : Callers :=
  events.foldl step s

theorem run_append (s : Callers) (events more : List Event) :
    s.run (events ++ more) = (s.run events).run more :=
  List.foldl_append

theorem run_concat (s : Callers) (events : List Event) (e : Event) :
    s.run (events ++ [e]) = (s.run events).step e :=
  s.run_append events [e]

/-- The number is that of the request which is taken up next, and which will be written. -/
def Registers (s : Callers) (n : Nat) : Prop :=
  s.client.ended = false ∧ s.client.deaf = false ∧ ∃ o, s.client.queue.head? = some o ∧ o.call = n

/-! ### Where a call is -/

/-- Where the number of a call can be: it has a result, it is pending, its request waits to be taken
up, or its caller still has it. -/
def numbers (s : Callers) : List Nat :=
  s.results.map (·.1) ++ s.client.pending ++ s.client.queue.map (·.call) ++ s.drawn.map (·.call)

/-- The numbers drawn are those from one on, each is in one place, and nothing waits for a
connection that has ended. -/
structure Placed (k : Nat) (s : Callers) : Prop where
  next : s.client.next = k + 1
  numbers : s.numbers.Perm (List.range' 1 k)
  closed : s.client.ended = true → s.client.pending = [] ∧ s.client.queue = []

/-- What a step can do. -/
inductive Moves (s : Callers) : Event → Callers → Prop where
  | idle {e : Event} (hdraw : e.isDraw = false)
    (hsubmit : ∀ o ∈ s.drawn, e ≠ .submit o.call)
    (hregister : ∀ n, e = .register → ¬ s.Registers n)
    (hends : e.Ends → s.client.ended = true)
    (hsettles : ∀ n ∈ s.client.pending, ¬ e.Settles n) : Moves s e s
  | draw (params : Call) : Moves s (.draw params) (s.draw params)
  | submit {o : Outbound} (ho : o ∈ s.drawn) (hended : s.client.ended = false) :
    Moves s (.submit o.call) { s with
      client := { s.client with queue := s.client.queue ++ [o] }
      drawn := s.drawn.erase o }
  | refuse {o : Outbound} (ho : o ∈ s.drawn) (hended : s.client.ended = true) :
    Moves s (.submit o.call) { s with
      drawn := s.drawn.erase o
      results := s.results ++ [(o.call, .error (.connection "multiplexer died"))] }
  | register {o : Outbound} {queue : List Outbound} (hended : s.client.ended = false)
    (hdeaf : s.client.deaf = false) (hqueue : s.client.queue = o :: queue) :
    Moves s .register { s with
      client := { s.client with queue, pending := s.client.pending ++ [o.call] } }
  | fail {o : Outbound} {queue : List Outbound} (hended : s.client.ended = false)
    (hdeaf : s.client.deaf = true) (hqueue : s.client.queue = o :: queue) :
    Moves s .register { s with
      client := { s.client with queue }
      results := s.results ++ [Multiplexer.failure o.call (.connection "Broken pipe (os error 32)")] }
  | answer {text : String} {r : Response} {n : Nat} (hended : s.client.ended = false)
    (hr : (Event.line (some text)).response? = some r) (hid : r.id = idOf n)
    (hn : n ∈ s.client.pending) :
    Moves s (.line (some text)) { s with
      client := { s.client with pending := s.client.pending.erase n }
      results := s.results ++ [(n, .ok r)] }
  | close {e : Event} (he : e.Ends) (hended : s.client.ended = false) :
    Moves s e { s with
      client := { s.client with queue := [], pending := [], ended := true }
      results := s.results ++
        (s.client.pending.map (Multiplexer.failure · (.connection "connection closed")) ++
          s.client.queue.map fun o => (o.call, .error (.connection "no response received"))) }
  | hangUp : Moves s .hangUp { s with client := { s.client with deaf := true } }
  | recover : Moves s .recover { s with client := { s.client with deaf := false } }

variable {s s' : Callers} {e : Event} {k n : Nat} {events : List Event}

theorem moves_of_not_registers (h : ∀ n, ¬ s.Registers n) : Moves s .register s :=
  .idle rfl nofun (fun n _ => h n) nofun fun _ _ h => h.elim id nofun

theorem moves_of_not_settles {text : String}
    (h : ∀ n ∈ s.client.pending, ∀ r, Response.parse text = .ok r → r.id ≠ idOf n) :
    Moves s (.line (some text)) s := by
  refine .idle rfl nofun nofun nofun fun n hn hsettles => ?_
  obtain ⟨r, hr, hid⟩ := hsettles.resolve_left id
  exact h n hn r (Event.response?_line.1 hr) hid

theorem moves_submit (s : Callers) (call : Nat) : Moves s (.submit call) (s.submit call) := by
  unfold submit
  cases hfind : s.drawn.find? (·.call == call) with
  | none =>
    refine .idle rfl (fun o ho he => ?_) nofun nofun fun _ _ h => h.elim id nofun
    exact List.find?_eq_none.1 hfind o ho (beq_iff_eq.2 (Event.submit.inj he).symm)
  | some o =>
    obtain rfl : o.call = call := by simpa using List.find?_some hfind
    have ho := List.mem_of_find?_eq_some hfind
    cases hended : s.client.ended with
    | true =>
      simp only [multiplex, Multiplexer.step, Multiplexer.issue, if_pos hended]
      exact .refuse ho hended
    | false =>
      simpa [multiplex, Multiplexer.step, Multiplexer.issue, Multiplexer.Effect.none, hended]
        using Moves.submit ho hended

theorem moves_register (s : Callers) : Moves s .register (s.multiplex .register) := by
  cases hended : s.client.ended with
  | true =>
    have hidle : s.multiplex .register = s := by
      simp [multiplex, Multiplexer.step, Multiplexer.Effect.none, hended]
    rw [hidle]
    exact moves_of_not_registers fun n h => Bool.false_ne_true (h.1.symm.trans hended)
  | false =>
    cases hqueue : s.client.queue with
    | nil =>
      have hidle : s.multiplex .register = s := by
        simp [multiplex, Multiplexer.step, Multiplexer.register, Multiplexer.Effect.none, hended,
          hqueue]
      rw [hidle]
      refine moves_of_not_registers fun n h => ?_
      obtain ⟨-, -, o, ho, -⟩ := h
      rw [hqueue] at ho
      cases ho
    | cons o queue =>
      cases hdeaf : s.client.deaf with
      | true =>
        simpa [multiplex, Multiplexer.step, Multiplexer.register, hended, hqueue, hdeaf]
          using Moves.fail hended hdeaf hqueue
      | false =>
        simpa [multiplex, Multiplexer.step, Multiplexer.register, hended, hqueue, hdeaf]
          using Moves.register hended hdeaf hqueue

theorem Placed.moves_ends (h : s.Placed k) (he : e.Ends) : Moves s e (s.multiplex .close) := by
  cases hended : s.client.ended with
  | true =>
    have hidle : s.multiplex .close = s := by
      simp [multiplex, Multiplexer.step, Multiplexer.Effect.none, hended]
    rw [hidle]
    refine .idle he.isDraw_eq (fun o _ hsubmit => ?_) (fun n hregister => ?_) (fun _ => hended)
      fun n hn => ?_
    · rw [hsubmit] at he
      cases he
    · rw [hregister] at he
      cases he
    · rw [(h.closed hended).1] at hn
      cases hn
  | false =>
    simpa [multiplex, Multiplexer.step, Multiplexer.close, hended] using Moves.close he hended

theorem Placed.moves_line (h : s.Placed k) (text : String) :
    Moves s (.line (some text)) (s.multiplex (.line (some text))) := by
  have hidle (hstep : s.multiplex (.line (some text)) = s)
      (hid : ∀ n ∈ s.client.pending, ∀ r, Response.parse text = .ok r → r.id ≠ idOf n) :
      Moves s (.line (some text)) (s.multiplex (.line (some text))) := by
    rw [hstep]
    exact moves_of_not_settles hid
  cases hended : s.client.ended with
  | true =>
    refine hidle ?_ fun n hn => ?_
    · simp [multiplex, Multiplexer.step, Multiplexer.Effect.none, hended]
    · rw [(h.closed hended).1] at hn
      cases hn
  | false =>
    cases hparse : Response.parse text with
    | error f =>
      refine hidle ?_ fun n _ r hr => ?_
      · simp [multiplex, Multiplexer.step, Multiplexer.deliver, Multiplexer.Effect.none, hended,
          hparse]
      · cases hparse.symm.trans hr
    | ok r =>
      cases hfind : s.client.pending.find? (idOf · == r.id) with
      | none =>
        refine hidle ?_ fun n hn r' hr' hid => ?_
        · simp [multiplex, Multiplexer.step, Multiplexer.deliver, Multiplexer.Effect.none, hended,
            hparse, hfind]
        · obtain rfl := Except.ok.inj (hparse.symm.trans hr')
          exact List.find?_eq_none.1 hfind n hn (beq_iff_eq.2 hid.symm)
      | some n =>
        have hid : idOf n = r.id := by simpa using List.find?_some hfind
        have hn := List.mem_of_find?_eq_some hfind
        simpa [multiplex, Multiplexer.step, Multiplexer.deliver, hended, hparse, hfind]
          using Moves.answer hended (Event.response?_line.2 hparse) hid.symm hn

theorem Placed.moves (h : s.Placed k) (e : Event) : Moves s e (s.step e) := by
  cases e with
  | draw params => exact .draw params
  | submit call => exact s.moves_submit call
  | register => exact s.moves_register
  | close => exact h.moves_ends trivial
  | line text =>
    cases text with
    | none => exact h.moves_ends trivial
    | some text => exact h.moves_line text
  | hangUp =>
    simpa [step, multiplex, Multiplexer.step, Multiplexer.Effect.none] using Moves.hangUp (s := s)
  | recover => exact .recover

/-- Only a draw brings a number in, and nothing takes one away. -/
theorem Moves.numbers_perm (hm : Moves s e s') (he : e.isDraw = false) :
    s'.numbers.Perm s.numbers := by
  refine List.perm_iff_count.2 fun n => ?_
  cases hm with
  | idle => rfl
  | draw => cases he
  | submit ho =>
    have ho := ((List.perm_cons_erase ho).map (·.call)).count_eq n
    simp only [numbers, List.count_append, List.map_append, List.map_cons, List.map_nil,
      List.count_cons, List.count_nil] at ho ⊢
    omega
  | refuse ho =>
    have ho := ((List.perm_cons_erase ho).map (·.call)).count_eq n
    simp only [numbers, List.count_append, List.map_append, List.map_cons, List.map_nil,
      List.count_cons, List.count_nil] at ho ⊢
    omega
  | register hended hdeaf hqueue =>
    simp only [numbers, hqueue, List.count_append, List.map_cons, List.count_cons, List.count_nil]
    omega
  | fail hended hdeaf hqueue =>
    simp only [numbers, hqueue, Multiplexer.failure, List.count_append, List.map_append,
      List.map_cons, List.map_nil, List.count_cons, List.count_nil]
    omega
  | answer hended hr hid hpending =>
    have hpending := (List.perm_cons_erase hpending).count_eq n
    simp only [numbers, List.count_append, List.map_append, List.map_cons, List.map_nil,
      List.count_cons, List.count_nil] at hpending ⊢
    omega
  | close =>
    have hfailed : (s.client.pending.map fun call =>
        Multiplexer.failure call (.connection "connection closed")).map (·.1) =
          s.client.pending := by
      rw [List.map_map]
      exact List.map_id _
    simp only [numbers, List.map_append, hfailed, List.map_map, Function.comp_def,
      List.count_append, List.map_nil, List.count_nil]
    omega
  | hangUp => rfl
  | recover => rfl

theorem Moves.next_eq (hm : Moves s e s') (he : e.isDraw = false) :
    s'.client.next = s.client.next := by
  cases hm with
  | draw => cases he
  | _ => rfl

theorem Moves.closed (hm : Moves s e s')
    (h : s.client.ended = true → s.client.pending = [] ∧ s.client.queue = []) :
    s'.client.ended = true → s'.client.pending = [] ∧ s'.client.queue = [] := by
  cases hm with
  | submit ho hended | register hended | fail hended | answer hended =>
    exact fun h' => nomatch hended.symm.trans h'
  | close => exact fun _ => ⟨rfl, rfl⟩
  | _ => exact h

theorem Placed.draw (h : s.Placed k) (params : Call) : (s.draw params).Placed (k + 1) where
  next := congrArg (· + 1) h.next
  numbers := by
    rw [List.range'_1_concat, Callers.numbers, Callers.draw, List.map_append, ← List.append_assoc,
      h.next, Nat.add_comm 1]
    exact h.numbers.append_right _
  closed := h.closed

theorem Placed.step (h : s.Placed k) (e : Event) :
    (s.step e).Placed (k + if e.isDraw then 1 else 0) := by
  have hm := h.moves e
  cases he : e.isDraw with
  | true =>
    cases e with
    | draw params => exact h.draw params
    | _ => cases he
  | false =>
    exact ⟨(hm.next_eq he).trans h.next, (hm.numbers_perm he).trans h.numbers, hm.closed h.closed⟩

/-- A caller that nobody gets ahead of issues its call as a whole. -/
theorem Placed.submit_draw (h : s.Placed k) (params : Call) :
    (s.draw params).submit s.client.next = s.multiplex (.issue params) := by
  have hfresh (o : Outbound) (ho : o ∈ s.drawn) : o.call ≠ s.client.next := by
    have hdrawn : o.call ∈ List.range' 1 k :=
      h.numbers.subset (List.mem_append_right _ (List.mem_map_of_mem ho))
    have hnext := h.next
    rw [List.mem_range'_1] at hdrawn
    omega
  have hnone : s.drawn.find? (·.call == s.client.next) = none :=
    List.find?_eq_none.2 fun o ho => by simpa using hfresh o ho
  have herase : (s.drawn ++ [(⟨s.client.next, params⟩ : Outbound)]).erase ⟨s.client.next, params⟩ =
      s.drawn := by
    rw [List.erase_append_right _ fun ho => hfresh _ ho rfl, List.erase_cons_head, List.append_nil]
  simp only [submit, Callers.draw, List.find?_append, hnone, Option.none_or, List.find?_cons,
    beq_self_eq_true, herase]
  cases hended : s.client.ended <;>
    simp [multiplex, Multiplexer.step, Multiplexer.issue, Multiplexer.Effect.none, hended]

end Callers

end WarmCompile
