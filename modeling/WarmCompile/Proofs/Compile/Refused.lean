import WarmCompile.Compile.External
import WarmCompile.Proofs.Compile.Source

/-!
When a file compile is refused because the file is no part of the project, which the text of the
error tells apart from any other failure.
-/

namespace WarmCompile

theorem CompileError.eq_of_message {e : CompileError} {path : String}
    (h : e.message = (notInProject path).message) : e = .notInProject path := by
  unfold message at h
  split at h
  case h_4 path' =>
    have hlist := congrArg String.toList h
    rw [String.toList_append, String.toList_append] at hlist
    rw [String.toList_inj.1 (List.append_cancel_left hlist)]
  -- No other text has an `l` in third place.
  all_goals
    have hthird := congrArg (fun text : String => text.toList[2]?) h
    simp at hthird

namespace SourceReader

variable {r : SourceReader} {disk : Disk} {path : String}

theorem files_of_read : (r.read disk path).2.files = r.files := by
  cases hread : r.read disk path with
  | mk result r' =>
    cases result with
    | ok content => exact (extends_read hread).files
    | error e =>
      unfold read at hread
      split at hread
      · cases hread
        rfl
      · split at hread
        · cases hread
        · split at hread <;> cases hread
          rfl

theorem read_ne_notInProject (h : path ∈ r.files) (q : String) :
    (r.read disk path).1 ≠ .error (.notInProject q) := by
  have hcontains : r.contains path = true := by simpa [contains] using h
  simp only [read, hcontains]
  intro hrefused
  cases hheld : r.held.find? path with
  | some content =>
    rw [hheld] at hrefused
    cases hrefused
  | none =>
    rw [hheld] at hrefused
    cases hread : disk.read path <;> (rw [hread] at hrefused; cases hrefused)

end SourceReader

namespace Compiler

variable {δ ω : Type} {c : Compiler δ ω} {job : Job} {path content : String} {w : ω}

/-- No emission finds that a file is no part of the project. -/
theorem emit_ne_notInProject (q : String) :
    (c.emit job path content w).1 ≠ .error (.notInProject q) := by
  unfold emit
  split
  · split <;> nofun
  · split
    · nofun
    · split
      · nofun
      · unfold codeOf
        split <;> nofun

/-- Nor does the delivery of files that the reader covers. -/
theorem deliver_ne_notInProject {due : String → String → Bool} {paths : List String}
    {r : SourceReader} (hcovered : paths ⊆ r.files) (q : String) :
    (c.deliver job due paths r w).1 ≠ .error (.notInProject q) := by
  induction paths generalizing r w with
  | nil => nofun
  | cons path paths ih =>
    have hread : (r.read (c.host.disk w) path).1 ≠ .error (.notInProject q) :=
      SourceReader.read_ne_notInProject (hcovered List.mem_cons_self) q
    have hfiles : (r.read (c.host.disk w) path).2.files = r.files := SourceReader.files_of_read
    unfold deliver
    split
    · rename_i e r' he
      rw [he] at hread
      exact fun h => hread (congrArg Except.error (Except.error.inj h))
    · rename_i content r' hr
      rw [hr] at hfiles
      have hrest : paths ⊆ r'.files := fun p hp =>
        hfiles ▸ hcovered (List.mem_cons_of_mem path hp)
      split
      · have hemit : (c.emit job path content w).1 ≠ .error (.notInProject q) :=
          emit_ne_notInProject q
        split
        · rename_i e w' he
          rw [he] at hemit
          exact fun h => hemit (congrArg Except.error (Except.error.inj h))
        · rename_i code w' _
          have hlater := ih (w := w') hrest
          split
          · rename_i e r'' w'' hd
            rw [hd] at hlater
            exact hlater
          · nofun
      · exact ih hrest

variable [DecidableEq δ]

/-- A file compile is refused in this way if and only if the project does not list the file. -/
theorem compileFile_refused_iff {b : Workbench (Table δ) ω} {q : String}
    (hcovered : job.project.sourceFiles ⊆ b.sources.files) :
    (c.compileFile job path b).1 = .error (.notInProject q) ↔
      path ∉ job.project.sourceFiles ∧ q = path := by
  unfold compileFile
  by_cases hlisted : path ∈ job.project.sourceFiles
  · have hcontains : job.project.contains path = true := by
      simpa [ResolvedProject.contains] using hlisted
    rw [if_pos hcontains]
    refine ⟨fun h => ?_, fun h => absurd hlisted h.1⟩
    unfold compile at h
    have hdeliver : (c.deliver job
        (fun file content => file == path || c.isStale b.checker file content)
        job.project.sourceFiles b.sources b.world).1 ≠ .error (.notInProject q) :=
      deliver_ne_notInProject hcovered q
    split at h
    · rename_i e r w' he
      rw [he] at hdeliver
      exact absurd (congrArg Except.error (Except.error.inj h)) hdeliver
    · cases h
  · have hcontains : ¬ job.project.contains path = true := by
      simpa [ResolvedProject.contains] using hlisted
    rw [if_neg hcontains]
    constructor
    · intro h
      cases h
      exact ⟨hlisted, rfl⟩
    · rintro ⟨-, rfl⟩
      rfl

end Compiler

end WarmCompile
