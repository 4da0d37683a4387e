import WarmCompile.Proofs.Session.Run

/-!
Keeping note of the calls of a backend. The notes lie beside the system and change nothing in it.
-/

namespace WarmCompile

/-- A call of a backend: what it was given and what came of it. -/
inductive BackendCall (κ : Type) where
  | crack (config : ProjectConfig) (result : Except Failure ResolvedProject)
  | createChecker (project : ResolvedProject) (result : Except Failure κ)
  | compileProject (job : Job) (sources : SourceReader) (checker : κ)
    (result : Except Failure Output)
  | compileFile (job : Job) (path : String) (sources : SourceReader) (checker : κ)
    (result : Except Failure Output)

variable {κ ω : Type}

/-- A system with the notes on the calls made so far. -/
abbrev Noted (κ ω : Type) := ω × List (BackendCall κ)

namespace Backend

def noted (b : Backend κ ω) : Backend κ (Noted κ ω) where
  crack config w :=
    let (result, w') := b.crack config w.1
    (result, w', w.2 ++ [.crack config result])
  createChecker project w :=
    let (result, w') := b.createChecker project w.1
    (result, w', w.2 ++ [.createChecker project result])
  compileProject job bench :=
    let (result, bench') := b.compileProject job ⟨bench.sources, bench.checker, bench.world.1⟩
    (result, ⟨bench'.sources, bench'.checker, bench'.world,
      bench.world.2 ++ [.compileProject job bench.sources bench.checker result]⟩)
  compileFile job path bench :=
    let (result, bench') := b.compileFile job path ⟨bench.sources, bench.checker, bench.world.1⟩
    (result, ⟨bench'.sources, bench'.checker, bench'.world,
      bench.world.2 ++ [.compileFile job path bench.sources bench.checker result]⟩)

section

variable {b : Backend κ ω} {w w' : ω} {notes : List (BackendCall κ)} {job : Job}
  {sources : SourceReader} {checker : κ} {bench : Workbench κ ω} {result : Except Failure Output}

theorem noted_crack {config : ProjectConfig} {result : Except Failure ResolvedProject}
    (h : b.crack config w = (result, w')) :
    b.noted.crack config (w, notes) = (result, w', notes ++ [.crack config result]) := by
  simp only [noted, h]

theorem noted_createChecker {project : ResolvedProject} {result : Except Failure κ}
    (h : b.createChecker project w = (result, w')) :
    b.noted.createChecker project (w, notes) =
      (result, w', notes ++ [.createChecker project result]) := by
  simp only [noted, h]

theorem noted_compileProject (h : b.compileProject job ⟨sources, checker, w⟩ = (result, bench)) :
    b.noted.compileProject job ⟨sources, checker, w, notes⟩ =
      (result, ⟨bench.sources, bench.checker, bench.world,
        notes ++ [.compileProject job sources checker result]⟩) := by
  simp only [noted, h]

theorem noted_compileFile {path : String}
    (h : b.compileFile job path ⟨sources, checker, w⟩ = (result, bench)) :
    b.noted.compileFile job path ⟨sources, checker, w, notes⟩ =
      (result, ⟨bench.sources, bench.checker, bench.world,
        notes ++ [.compileFile job path sources checker result]⟩) := by
  simp only [noted, h]

end

end Backend

def Turn.noted : Turn ω → Turn (Noted κ ω)
  | .handle l => .handle l
  | .edit change => .edit (Prod.map change id)

namespace Actor

def Event.noted : Event ω → Event (Noted κ ω)
  | .call l => .call l
  | .enter n => .enter n
  | .leave n => .leave n
  | .take => .take
  | .finish => .finish
  | .cancel => .cancel
  | .desert => .desert
  | .edit change => .edit (Prod.map change id)

end Actor

namespace Service

def noted (service : Service κ ω) : Service κ (Noted κ ω) :=
  ⟨service.backend.noted, service.resolver⟩

def calls (service : Service κ ω) (w : ω) (turns : List (Turn ω)) : List (BackendCall κ) :=
  (service.noted.state (none, w, []) (turns.map .noted)).2.2

end Service

namespace Actor

def calls (service : Service κ ω) (capacity : Nat) (w : ω) (events : List (Event ω)) :
    List (BackendCall κ) :=
  ((spawn capacity (w, [])).run service.noted (events.map .noted)).1.world.2

/-- Two keepers that differ in nothing but what they keep. -/
structure Alike (a : Actor κ ω) (a' : Actor κ (Noted κ ω)) : Prop where
  mailbox : a'.mailbox = a.mailbox
  current : a'.current = a.current
  cancelled : a'.cancelled = a.cancelled
  deserted : a'.deserted = a.deserted

variable {service : Service κ ω} {service' : Service κ (Noted κ ω)} {a : Actor κ ω}
  {a' : Actor κ (Noted κ ω)}

theorem Alike.takeNext (h : Alike a a') : Alike a.takeNext.1 a'.takeNext.1 := by
  have hstop : Alike a.stop.1 a'.stop.1 :=
    ⟨congrArg Mailbox.close h.mailbox, h.current, h.cancelled, h.deserted⟩
  unfold Actor.takeNext isStopped
  rw [h.mailbox, h.current, h.cancelled, h.deserted]
  by_cases hbusy : (a.mailbox.closed || a.current.isSome) = true
  · rw [if_pos hbusy, if_pos hbusy]
    exact h
  · rw [if_neg hbusy, if_neg hbusy]
    by_cases hcancelled : a.cancelled = true
    · rw [if_pos hcancelled, if_pos hcancelled]
      exact hstop
    · rw [if_neg hcancelled, if_neg hcancelled]
      cases a.mailbox.take with
      | none =>
        by_cases halone : (a.deserted && a.mailbox.waiting.isEmpty) = true
        · simp only [if_pos halone]
          exact hstop
        · simp only [if_neg halone]
          exact h
      | some taken =>
        by_cases hlast : taken.1.message = .disconnect
        · simp only [if_pos hlast]
          exact ⟨rfl, rfl, rfl, rfl⟩
        · simp only [if_neg hlast]
          exact ⟨rfl, rfl, rfl, rfl⟩

theorem Alike.step (h : Alike a a') (e : Event ω) :
    Alike (a.step service e).1 (a'.step service' e.noted).1 := by
  cases e with
  | call l =>
    have hstopped : a'.isStopped = a.isStopped := congrArg Mailbox.closed h.mailbox
    simp only [Event.noted, Actor.step, hstopped, h.mailbox]
    by_cases hclosed : a.isStopped = true
    · simp only [if_pos hclosed]
      exact h
    · simp only [if_neg hclosed]
      exact ⟨rfl, h.current, h.cancelled, h.deserted⟩
  | enter call =>
    simp only [Event.noted, Actor.step, h.mailbox]
    cases a.mailbox.enter (·.call == call) with
    | none => exact h
    | some found => exact ⟨rfl, h.current, h.cancelled, h.deserted⟩
  | leave call =>
    exact ⟨congrArg (fun m => m.withdraw fun l => l.call == call) h.mailbox, h.current,
      h.cancelled, h.deserted⟩
  | take => exact h.takeNext
  | finish =>
    simp only [Event.noted, Actor.step, finishCurrent, h.current]
    cases hcurrent : a.current with
    | none => exact h
    | some l => exact ⟨h.mailbox, rfl, h.cancelled, h.deserted⟩
  | cancel => exact ⟨h.mailbox, h.current, rfl, h.deserted⟩
  | desert => exact ⟨h.mailbox, h.current, h.cancelled, rfl⟩
  | edit change => exact ⟨h.mailbox, h.current, h.cancelled, h.deserted⟩

theorem Alike.completing (h : Alike a a') (e : Event ω) :
    a'.completing e.noted = (a.completing e).map .noted := by
  cases e with
  | finish =>
    simp only [Event.noted, Actor.completing, h.current]
    cases a.current <;> rfl
  | _ => rfl

theorem Alike.turns (h : Alike a a') (service : Service κ ω) (events : List (Event ω)) :
    a'.turns service' (events.map .noted) = (a.turns service events).map .noted := by
  induction events generalizing a a' with
  | nil => rfl
  | cons e events ih =>
    change _ ++ Actor.turns service' _ _ = List.map _ (_ ++ Actor.turns service _ _)
    rw [h.completing, ih (h.step e), List.map_append]

end Actor

end WarmCompile
