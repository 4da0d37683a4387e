import WarmCompile.Compile.External
import WarmCompile.Proofs.Session.Turn

/-!
Backends that remember nothing outside the checkers: a project compile that fails leaves everything
as it was.
-/

namespace WarmCompile

variable {κ ω : Type}

/-- The calls of the backend leave the system as it was. -/
structure Backend.Quiet (b : Backend κ ω) : Prop where
  crack : ∀ config w, (b.crack config w).2 = w
  createChecker : ∀ project w, (b.createChecker project w).2 = w
  compileProject : ∀ job bench, (b.compileProject job bench).2.world = bench.world
  compileFile : ∀ job path bench, (b.compileFile job path bench).2.world = bench.world

namespace Compiler

variable {δ : Type} {c : Compiler δ ω}

theorem world_of_emit (hrun : ∀ inv w, (c.host.run inv w).2 = w) (job : Job)
    (path content : String) (w : ω) : (c.emit job path content w).2 = w := by
  unfold emit
  split
  · split <;> rfl
  · split
    · rfl
    · rename_i program hcommand
      have hworld := hrun (c.command program path content job) w
      split <;> (rename_i hr; rw [hr] at hworld; exact hworld)

theorem world_of_deliver (hrun : ∀ inv w, (c.host.run inv w).2 = w) (job : Job)
    (due : String → String → Bool) (paths : List String) (r : SourceReader) (w : ω) :
    (c.deliver job due paths r w).2.2 = w := by
  induction paths generalizing r w with
  | nil => rfl
  | cons path paths ih =>
    unfold deliver
    split
    · rfl
    · rename_i content r' hread
      split
      · have hworld := world_of_emit hrun job path content w
        split
        · rename_i hemit
          rw [hemit] at hworld
          exact hworld
        · rename_i code w' hemit
          rw [hemit] at hworld
          have hrest := ih r' w'
          split <;> (rename_i hd; rw [hd] at hrest; exact hrest.trans hworld)
      · exact ih r' w

theorem world_of_compile (hrun : ∀ inv w, (c.host.run inv w).2 = w) (job : Job)
    (due : String → String → Bool) (b : Workbench (Table δ) ω) :
    (c.compile job due b).2.world = b.world := by
  have hworld := world_of_deliver hrun job due job.project.sourceFiles b.sources b.world
  unfold compile
  split <;> (rename_i hd; rw [hd] at hworld; exact hworld)

theorem failing_snd {α β : Type} (r : Except CompileError α × β) : (failing r).2 = r.2 := by
  rcases r with ⟨_ | _, _⟩ <;> rfl

theorem of_failing_ok {α β : Type} {x : Except CompileError α × β} {a : α} {b : β}
    (h : failing x = (.ok a, b)) : x = (.ok a, b) := by
  obtain ⟨result, b'⟩ := x
  cases result with
  | error e => cases h
  | ok a' =>
    cases h
    rfl

theorem of_failing_error {α β : Type} {x : Except CompileError α × β} {f : Failure} {b : β}
    (h : failing x = (.error f, b)) : ∃ e, x = (.error e, b) := by
  obtain ⟨result, b'⟩ := x
  cases result with
  | error e =>
    cases h
    exact ⟨e, rfl⟩
  | ok a => cases h

variable [DecidableEq δ]

theorem crack_of_backend {config : ProjectConfig} {w w' : ω} {p : ResolvedProject}
    (h : c.backend.crack config w = (.ok p, w')) : config.crack (c.host.disk w) = .ok p :=
  congrArg Prod.fst (of_failing_ok h)

/-- A command that changes nothing makes for a quiet backend. -/
theorem quiet_backend (hrun : ∀ inv w, (c.host.run inv w).2 = w) : c.backend.Quiet where
  crack config w := failing_snd _
  createChecker project w := rfl
  compileProject job bench := by
    change (failing (c.compileProject job bench)).2.world = bench.world
    rw [failing_snd]
    exact world_of_compile hrun job _ bench
  compileFile job path bench := by
    change (failing (c.compileFile job path bench)).2.world = bench.world
    rw [failing_snd]
    unfold Compiler.compileFile
    split
    · exact world_of_compile hrun job _ bench
    · rfl

end Compiler

variable {service : Service κ ω} {s : Option (Session κ) × ω} {l : Letter}

theorem Session.world_of_build (hquiet : service.backend.Quiet) (params : InitParams) (w : ω) :
    (Session.build service params w).2 = w := by
  unfold Session.build
  split
  · rfl
  · rename_i config hconfig
    have hcrack := hquiet.crack config w
    split
    · rename_i hc
      rw [hc] at hcrack
      exact hcrack
    · rename_i project w₁ hc
      rw [hc] at hcrack
      have hcreate := hquiet.createChecker project w₁
      split
      · rename_i hk
        rw [hk] at hcreate
        exact hcreate.trans hcrack
      · rename_i checker w₂ hk
        rw [hk] at hcreate
        have hcompile := hquiet.compileProject ⟨service.resolver, config, project⟩
          ⟨.ofFiles project.sourceFiles, checker, w₂⟩
        dsimp only
        split <;>
          (rename_i hp; rw [hp] at hcompile; exact hcompile.trans (hcreate.trans hcrack))

namespace Service

/-- What is answered to a project compile that fails stands for the whole of what it does. -/
theorem advance_of_failed (hquiet : service.backend.Quiet) {call : Nat} {text : String}
    (hfail : service.reply s (.handle l) = [(call, .answered (.init (.error text)))]) :
    l.call = call ∧ (∃ params, l.message = .init params) ∧ service.advance s (.handle l) = s := by
  obtain ⟨number, message⟩ := l
  cases message with
  | init params =>
    have hworld := Session.world_of_build hquiet params s.2
    simp only [reply, handle] at hfail
    simp only [advance, handle]
    split at hfail
    · simp at hfail
    · rename_i f w hbuild
      rw [hbuild] at hworld
      obtain rfl : w = s.2 := hworld
      simp only [Option.map_some, Option.toList_some, List.cons.injEq, Prod.mk.injEq] at hfail
      exact ⟨hfail.1.1, ⟨params, rfl⟩, rfl⟩
  | compile path =>
    simp only [reply, handle] at hfail
    split at hfail <;> simp at hfail
  | disconnect =>
    simp [reply, handle] at hfail

end Service

end WarmCompile
