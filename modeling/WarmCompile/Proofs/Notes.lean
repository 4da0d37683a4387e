/-!
Keeping notes along a run, whatever goes on in it.
-/

namespace WarmCompile

variable {σ ε α : Type}

/-- What a run leaves in a notebook that is written in ahead of every step. -/
def notesOf (step : σ → ε → σ) (note : σ → ε → List α) (s : σ) : List ε → List α
  | [] => []
  | e :: events => note s e ++ notesOf step note (step s e) events

theorem notesOf_append (step : σ → ε → σ) (note : σ → ε → List α) (s : σ)
    (events events' : List ε) : notesOf step note s (events ++ events') =
      notesOf step note s events ++ notesOf step note (events.foldl step s) events' := by
  induction events generalizing s with
  | nil => rfl
  | cons e events ih => rw [List.cons_append, notesOf, ih, notesOf, List.append_assoc]; rfl

theorem notesOf_concat (step : σ → ε → σ) (note : σ → ε → List α) (s : σ) (events : List ε)
    (e : ε) : notesOf step note s (events ++ [e]) =
      notesOf step note s events ++ note (events.foldl step s) e := by
  rw [notesOf_append, notesOf, notesOf, List.append_nil]

end WarmCompile
