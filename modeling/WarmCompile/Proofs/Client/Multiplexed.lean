import Mathlib.Data.List.Nodup
import WarmCompile.Proofs.Client.Conversation
import WarmCompile.Proofs.Wire.Request
import WarmCompile.Proofs.Wire.Response

/-!
The client's side of a conversation: each call has a number of its own, its request goes out once
under that number, and a response is handed to the call whose number it bears.
-/

namespace WarmCompile

open Multiplexer (requestOf idOf)

theorem Multiplexer.idOf_injective {m n : Nat} (h : idOf m = idOf n) : m = n := by
  rw [idOf, idOf, Nat.toString_eq_ofList_toDigits, Nat.toString_eq_ofList_toDigits] at h
  have hvalue := congrArg (Nat.ofDigitChars 10 · 0) (String.ofList_injective h)
  simpa only [Nat.ofDigitChars_toDigits (b := 10) (by decide) (by decide)] using hvalue

/-- The line that a request goes out as. -/
def Outbound.line (o : Outbound) : String :=
  (requestOf o).toJson.compact

theorem Outbound.unbroken (o : Outbound) : Lines.Unbroken o.line :=
  (requestOf o).unbroken_compact

namespace Conversation

variable {κ ω : Type} {s : Conversation κ ω}

/-! ### What the multiplexer does -/

theorem multiplex_issue (params : Call) (h : s.client.ended = false) :
    s.multiplex (.issue params) = { s with
      client := { s.client with
        next := s.client.next + 1
        queue := s.client.queue ++ [⟨s.client.next, params⟩] } } := by
  simp [multiplex, Multiplexer.step, Multiplexer.issue, Multiplexer.Effect.none, h]

theorem multiplex_register_nil (h : s.client.ended = false) (hqueue : s.client.queue = []) :
    s.multiplex .register = s := by
  simp [multiplex, Multiplexer.step, Multiplexer.register, Multiplexer.Effect.none, h, hqueue]

theorem multiplex_register {o : Outbound} {queue : List Outbound} (h : s.client.ended = false)
    (hdeaf : s.client.deaf = false) (hqueue : s.client.queue = o :: queue) :
    s.multiplex .register = { s with
      client := { s.client with queue, pending := s.client.pending ++ [o.call] }
      upward := s.upward ++ Lines.frame o.line } := by
  simp [multiplex, Multiplexer.step, Multiplexer.register, h, hdeaf, hqueue, Outbound.line]

theorem multiplex_line {r : Response} (h : s.client.ended = false) (hr : r.Fits) :
    s.multiplex (.line (some r.toLine)) = match s.client.pending.find? (idOf · == r.id) with
      | none => s
      | some call => { s with
        client := { s.client with pending := s.client.pending.erase call }
        results := s.results ++ [(call, .ok r)] } := by
  have hstep : s.client.step (.line (some r.toLine)) =
      match s.client.pending.find? (idOf · == r.id) with
      | none => (s.client, .none)
      | some call => ({ s.client with pending := s.client.pending.erase call },
        ⟨[(call, .ok r)], []⟩) := by
    simp only [Multiplexer.step, h, Multiplexer.deliver, hr.parse_toLine]
    rfl
  unfold multiplex
  rw [hstep]
  cases s.client.pending.find? (idOf · == r.id) with
  | none => simp [Multiplexer.Effect.none]
  | some call => simp

/-! ### Numbers -/

/-- The numbers of the calls are those from one on. Of the issued calls, some have been read as
requests, each under a letter's number, some are on their way, and the others wait to be taken up;
those that have gone out are pending until they have a result. -/
structure Sending (issued : List Outbound) (read : List (Nat × Outbound))
    (unread : List Outbound) (client : Multiplexer) (finished : List Nat) : Prop where
  deaf : client.deaf = false
  ended : client.ended = false
  next : client.next = issued.length + 1
  numbers : issued.map (·.call) = List.range' 1 issued.length
  placed : issued.Perm (read.map (·.2) ++ unread ++ client.queue)
  pending : ((read.map (·.2) ++ unread).map (·.call)).Perm (client.pending ++ finished)

variable {issued unread : List Outbound} {read : List (Nat × Outbound)} {client : Multiplexer}
  {finished : List Nat} {o : Outbound}

theorem sending_start : Sending [] [] [] .start [] :=
  ⟨rfl, rfl, rfl, rfl, .refl _, .refl _⟩

namespace Sending

theorem issue (h : Sending issued read unread client finished) (params : Call) :
    Sending (issued ++ [⟨issued.length + 1, params⟩]) read unread
      { client with
        next := client.next + 1
        queue := client.queue ++ [⟨client.next, params⟩] } finished where
  deaf := h.deaf
  ended := h.ended
  next := by rw [h.next, List.length_append, List.length_singleton]
  numbers := by
    rw [List.map_append, h.numbers, List.length_append, List.length_singleton,
      List.range'_1_concat, Nat.add_comm 1]
    rfl
  placed := by
    rw [h.next, ← List.append_assoc]
    exact h.placed.append_right _
  pending := h.pending

theorem overtake (h : Sending issued read unread client finished) {queue : List Outbound}
    (hqueue : queue.Perm client.queue) :
    Sending issued read unread { client with queue } finished :=
  { h with placed := h.placed.trans (hqueue.symm.append_left _) }

theorem register {queue : List Outbound} (h : Sending issued read unread client finished)
    (hqueue : client.queue = o :: queue) :
    Sending issued read (unread ++ [o])
      { client with queue, pending := client.pending ++ [o.call] } finished where
  deaf := h.deaf
  ended := h.ended
  next := h.next
  numbers := h.numbers
  placed := by
    have hplaced := h.placed
    rw [hqueue] at hplaced
    simpa only [List.append_assoc, List.singleton_append] using hplaced
  pending := by
    rw [← List.append_assoc, List.map_append, List.append_assoc]
    refine (h.pending.append_right _).trans ?_
    rw [List.append_assoc]
    exact List.perm_append_comm.append_left _

theorem readLine (h : Sending issued read (o :: unread) client finished) (letter : Nat) :
    Sending issued (read ++ [(letter, o)]) unread client finished := by
  have hmove : (read ++ [(letter, o)]).map (·.2) ++ unread = read.map (·.2) ++ o :: unread := by
    rw [List.map_append, List.append_assoc]
    rfl
  exact { h with
    placed := by rw [hmove]; exact h.placed
    pending := by rw [hmove]; exact h.pending }

theorem result {call : Nat} (h : Sending issued read unread client finished)
    (hcall : call ∈ client.pending) :
    Sending issued read unread { client with pending := client.pending.erase call }
      (finished ++ [call]) where
  deaf := h.deaf
  ended := h.ended
  next := h.next
  numbers := h.numbers
  placed := h.placed
  pending := by
    refine h.pending.trans (((List.perm_cons_erase hcall).append_right _).trans ?_)
    rw [← List.append_assoc]
    exact (List.perm_append_singleton call _).symm

theorem numbers_nodup (h : Sending issued read unread client finished) :
    (issued.map (·.call)).Nodup := by
  rw [h.numbers]
  exact List.nodup_range' 1

theorem gone_nodup (h : Sending issued read unread client finished) :
    ((read.map (·.2) ++ unread).map (·.call)).Nodup := by
  have hall := (h.placed.map (·.call)).nodup_iff.1 h.numbers_nodup
  rw [List.map_append] at hall
  exact hall.of_append_left

theorem read_nodup (h : Sending issued read unread client finished) :
    (read.map (·.2.call)).Nodup := by
  have hall := h.gone_nodup
  rw [List.map_append, List.map_map] at hall
  exact hall.of_append_left

theorem ids_nodup (h : Sending issued read unread client finished) :
    (read.map fun x => idOf x.2.call).Nodup := by
  have hall := h.read_nodup.map fun _ _ => Multiplexer.idOf_injective
  rwa [List.map_map] at hall

theorem finished_nodup (h : Sending issued read unread client finished) : finished.Nodup :=
  (h.pending.nodup_iff.1 h.gone_nodup).of_append_right

theorem issued_of_read (h : Sending issued read unread client finished) :
    ∀ x ∈ read, x.2 ∈ issued := by
  intro x hx
  refine h.placed.mem_iff.2 (List.mem_append_left _ (List.mem_append_left _ ?_))
  exact List.mem_map_of_mem hx

end Sending

end Conversation

end WarmCompile
