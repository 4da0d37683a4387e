import WarmCompile.Session.Actor

/-!
Serving messages one at a time: what a keeper would do that had no mailbox and nobody waiting.
-/

namespace WarmCompile

/-- A message is handled, or the surroundings change. -/
inductive Turn (ω : Type) where
  | handle (letter : Letter)
  | edit (change : ω → ω)

namespace Turn

variable {ω : Type}

def letter? : Turn ω → Option Letter
  | .handle l => some l
  | .edit _ => none

def change? : Turn ω → Option (ω → ω)
  | .handle _ => none
  | .edit change => some change

end Turn

def lettersOf {ω : Type} (turns : List (Turn ω)) : List Letter := turns.filterMap Turn.letter?

theorem lettersOf_append {ω : Type} {turns turns' : List (Turn ω)} :
    lettersOf (turns ++ turns') = lettersOf turns ++ lettersOf turns' :=
  List.filterMap_append

def changesOf {ω : Type} (turns : List (Turn ω)) : List (ω → ω) := turns.filterMap Turn.change?

namespace Service

variable {κ ω : Type} {service : Service κ ω} {s : Option (Session κ) × ω}
  {turns turns' : List (Turn ω)} {l : Letter}

/-- The session and its surroundings after one turn. -/
def advance (service : Service κ ω) (s : Option (Session κ) × ω) : Turn ω →
    Option (Session κ) × ω
  | .handle l => (service.handle s.1 s.2 l.message).2
  | .edit change => (s.1, change s.2)

def reply (service : Service κ ω) (s : Option (Session κ) × ω) : Turn ω → Actor.Endings
  | .handle l => ((service.handle s.1 s.2 l.message).1.map fun answer =>
      (l.call, Ending.answered answer)).toList
  | .edit _ => []

def state (service : Service κ ω) (s : Option (Session κ) × ω) (turns : List (Turn ω)) :
    Option (Session κ) × ω :=
  turns.foldl service.advance s

def replies (service : Service κ ω) (s : Option (Session κ) × ω) : List (Turn ω) → Actor.Endings
  | [] => []
  | t :: turns => service.reply s t ++ service.replies (service.advance s t) turns

theorem state_append :
    service.state s (turns ++ turns') = service.state (service.state s turns) turns' :=
  List.foldl_append

theorem replies_append :
    service.replies s (turns ++ turns') =
      service.replies s turns ++ service.replies (service.state s turns) turns' := by
  induction turns generalizing s with
  | nil => rfl
  | cons t turns ih => simp only [List.cons_append, replies, ih, List.append_assoc]; rfl

/-- Everything but a disconnect is answered. -/
theorem reply_of_request (service : Service κ ω) (s : Option (Session κ) × ω)
    (hl : l.message ≠ .disconnect) :
    ∃ answer, service.reply s (.handle l) = [(l.call, .answered answer)] := by
  cases hm : l.message with
  | init params =>
    simp only [reply, hm, handle]
    split <;> exact ⟨_, rfl⟩
  | compile path =>
    simp only [reply, hm, handle]
    split <;> exact ⟨_, rfl⟩
  | disconnect => exact absurd hm hl

theorem answer_of_reply {call : Nat} {answer : Answer}
    (h : service.reply s (.handle l) = [(call, .answered answer)]) :
    l.call = call ∧ (service.handle s.1 s.2 l.message).1 = some answer := by
  cases ha : (service.handle s.1 s.2 l.message).1 with
  | none => simp [reply, ha] at h
  | some answer' => simpa [reply, ha] using h

theorem replies_calls (hl : ∀ l ∈ lettersOf turns, l.message ≠ .disconnect) :
    (service.replies s turns).map (·.1) = (lettersOf turns).map (·.call) := by
  induction turns generalizing s with
  | nil => rfl
  | cons t turns ih =>
    cases t with
    | handle l =>
      obtain ⟨answer, ha⟩ := reply_of_request service s (hl l List.mem_cons_self)
      have ih' := ih (s := service.advance s (.handle l))
        fun l' h => hl l' (List.mem_cons_of_mem _ h)
      simp only [replies, ha, List.cons_append, List.nil_append, List.map_cons, ih']
      rfl
    | edit change => exact ih (s := service.advance s (.edit change)) hl

end Service

end WarmCompile
