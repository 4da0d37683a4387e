import Mathlib.Data.List.Dedup
import Mathlib.Data.List.Perm.Lattice
import WarmCompile.Proofs.Compile.Incremental
import WarmCompile.Proofs.Session.Fresh
import WarmCompile.Proofs.Session.Scene

/-!
Which files have a fingerprint. The first project compile gives one to every file of the project at
once, and from then on fingerprints change, but none comes or goes.
-/

namespace WarmCompile

namespace Compiler

variable {δ ω : Type} {c : Compiler δ ω} {job : Job} {due : String → String → Bool}
  {paths : List String} {r r' : SourceReader} {done : List Delivered} {known : Table δ}
  {path : String}

theorem Delivery.mem_files (hd : c.Delivery job due paths r r' done)
    (h : path ∈ done.map (·.path)) : path ∈ paths := by
  obtain ⟨d, hdone, rfl⟩ := List.mem_map.1 h
  exact (hd.sound d hdone).1

theorem mem_keys_outputOf : path ∈ (outputOf done).keys ↔ path ∈ done.map (·.path) := by
  rw [Table.mem_keys_iff, isSome_find?_outputOf]

/-- A delivery adds the files that go out to those with a fingerprint. -/
theorem Delivery.mem_keys_record (hd : c.Delivery job due paths r r' done) :
    path ∈ (c.record known done).keys ↔ path ∈ known.keys ∨ path ∈ done.map (·.path) := by
  by_cases h : path ∈ done.map (·.path)
  · obtain ⟨content, -, hrecord⟩ := hd.find?_record known h
    rw [Table.mem_keys_iff, hrecord]
    exact iff_of_true rfl (.inr h)
  · rw [Table.mem_keys_iff, find?_record_of_not_mem h, ← Table.mem_keys_iff, or_iff_left h]

theorem Delivery.mem_done (hd : c.Delivery job (fun _ _ => true) paths r r' done) :
    path ∈ done.map (·.path) ↔ path ∈ paths := by
  refine ⟨hd.mem_files, fun hpath => ?_⟩
  obtain ⟨content, -, hdone⟩ := hd.complete path hpath
  exact hdone rfl

theorem mem_keys_of_compileProject {b b' : Workbench (Table δ) ω} {out : Output}
    (h : c.compileProject job b = (.ok out, b')) :
    path ∈ out.keys ↔ path ∈ job.project.sourceFiles := by
  obtain ⟨done, hd, rfl, -⟩ := compile_of_ok h
  rw [mem_keys_outputOf, hd.mem_done]

theorem mem_keys_of_compileFile [DecidableEq δ] {b b' : Workbench (Table δ) ω} {out : Output}
    (h : c.compileFile job path b = (.ok out, b')) :
    path ∈ out.keys ∧ ∀ file ∈ out.keys, file ∈ job.project.sourceFiles := by
  obtain ⟨done, hd, rfl, -⟩ := compileFile_of_ok h
  refine ⟨?_, fun file hfile => hd.mem_files (mem_keys_outputOf.1 hfile)⟩
  have hlisted : path ∈ job.project.sourceFiles := by
    unfold compileFile at h
    split at h
    · rename_i hcontains
      simpa [ResolvedProject.contains] using hcontains
    · cases h
  obtain ⟨content, -, hdone⟩ := hd.complete path hlisted
  exact mem_keys_outputOf.2 (hdone (by simp))

end Compiler

open Compiler

variable {δ ω : Type} {resolver : PathResolver}

/-- The files with a fingerprint are those of the project. -/
structure Session.Fingerprinted (s : Session (Table δ)) : Prop where
  sources : s.sources = s.project.sourceFiles
  keys : ∀ file, file ∈ s.checker.keys ↔ file ∈ s.project.sourceFiles

namespace Session.Fingerprinted

variable {s : Session (Table δ)} {file : String}

/-- There are as many fingerprints as there are files, a file listed twice counted once. -/
theorem size_eq (h : s.Fingerprinted) : s.checker.size = s.project.sourceFiles.dedup.length := by
  have hperm : s.checker.keys.Perm s.project.sourceFiles.dedup := by
    refine (List.perm_ext_iff_of_nodup (Table.nodup_keys _) (List.nodup_dedup _)).2 fun file => ?_
    rw [h.keys, List.mem_dedup]
  rw [← hperm.length_eq, Table.keys, List.length_map, Table.size]

theorem known (h : s.Fingerprinted) (hfile : file ∈ s.project.sourceFiles) :
    ∃ known, s.checker.find? file = some known :=
  Option.isSome_iff_exists.1 (Table.mem_keys_iff.1 ((h.keys file).2 hfile))

end Session.Fingerprinted

namespace Service

variable [DecidableEq δ] {c : Compiler δ ω} {session session' : Option (Session (Table δ))}
  {w w' : ω} {scene : Scene (Table δ)}

theorem Plays.fingerprinted (h : Plays ⟨c.backend, resolver⟩ session w scene session' w')
    (hs : ∀ s, session = some s → s.Fingerprinted) :
    ∀ s, session' = some s → s.Fingerprinted := by
  cases h with
  | opened params config project checker output w₁ w₂ b hconfig hcrack hcreate hcompile =>
    rintro _ ⟨⟩
    refine ⟨rfl, fun file => ?_⟩
    cases hcreate
    obtain ⟨done, hd, -, hchecker⟩ := compile_of_ok (of_failing_ok hcompile)
    rw [hchecker, hd.mem_keys_record, hd.mem_done]
    exact or_iff_right (List.not_mem_nil (a := file))
  | compiled path s result b hsome hcompile =>
    rintro _ ⟨⟩
    have hbefore := hs s hsome
    refine ⟨hbefore.sources, fun file => ?_⟩
    cases result with
    | error f =>
      obtain ⟨e, he⟩ := of_failing_error hcompile
      rw [checker_of_compileFile_error he]
      exact hbefore.keys file
    | ok output =>
      obtain ⟨done, hd, -, hchecker⟩ := compileFile_of_ok (of_failing_ok hcompile)
      rw [hchecker, hd.mem_keys_record, hbefore.keys]
      exact or_iff_left_of_imp hd.mem_files
  | _ => exact hs

/-- Whichever file compile is asked for, no file that it looks at is without a fingerprint. -/
theorem Plays.known (h : Plays ⟨c.backend, resolver⟩ session w scene session' w')
    (hs : ∀ s, session = some s → s.Fingerprinted) {job : Job} {path : String}
    {sources : SourceReader} {checker : Table δ} {result : Except Failure Output}
    (hcall : .compileFile job path sources checker result ∈ scene.calls) :
    ∀ file ∈ job.project.sourceFiles, ∃ known, checker.find? file = some known := by
  cases h with
  | compiled path s result b hsome hcompile =>
    cases List.mem_singleton.1 hcall
    exact fun file hfile => (hs s hsome).known hfile
  | _ => simp at hcall

/-- The output of a file compile is of files with a fingerprint, the one asked for among them. -/
theorem Plays.output_of_compile (h : Plays ⟨c.backend, resolver⟩ session w scene session' w')
    (hs : ∀ s, session = some s → s.Fingerprinted) {out : Output}
    (hout : scene.answer = some (.compile (.ok out))) :
    ∃ path s, scene.message = .compile path ∧ session = some s ∧
      Path.normalize path ∈ out.keys ∧ ∀ file ∈ out.keys, file ∈ s.checker.keys := by
  cases h with
  | compiled path s result b hsome hcompile =>
    cases result with
    | error f => cases hout
    | ok output =>
      cases hout
      obtain ⟨hasked, hlisted⟩ := mem_keys_of_compileFile (of_failing_ok hcompile)
      exact ⟨path, s, rfl, hsome, hasked, fun file hfile =>
        ((hs s hsome).keys file).2 (hlisted file hfile)⟩
  | _ => cases hout

theorem Plays.output_of_init (h : Plays ⟨c.backend, resolver⟩ session w scene session' w')
    {project : ResolvedProject} {out : Output}
    (hout : scene.answer = some (.init (.ok (project, out)))) :
    ∀ file, file ∈ out.keys ↔ file ∈ project.sourceFiles := by
  cases h with
  | opened params config project checker output w₁ w₂ b hconfig hcrack hcreate hcompile =>
    cases hout
    intro file
    rw [mem_keys_of_compileProject (of_failing_ok hcompile)]
  | _ => cases hout

/-- In every state that turns lead to, the session has the fingerprints of its files. -/
theorem fingerprinted_of_turns (c : Compiler δ ω) (resolver : PathResolver) (w : ω)
    (turns : List (Turn ω)) : ∀ s, (state ⟨c.backend, resolver⟩ (none, w) turns).1 = some s →
      s.Fingerprinted := by
  induction turns using List.reverseRecOn with
  | nil =>
    intro s hs
    have hnone : (none : Option (Session (Table δ))) = some s := hs
    cases hnone
  | append_singleton turns t ih =>
    rw [state_append]
    cases t with
    | handle l => exact (plays_scene ⟨c.backend, resolver⟩ _ _ l.message).fingerprinted ih
    | edit change => exact ih

end Service

namespace Actor

theorem turn_of_answer {κ : Type} {service : Service κ ω} {capacity : Nat} {w : ω}
    {events : List (Event ω)} {call : Nat} {answer : Answer}
    (h : (call, .answered answer) ∈ ((spawn capacity w).run service events).2) :
    ∃ before l after, (spawn capacity w).turns service events = before ++ .handle l :: after ∧
      l.call = call ∧
      (service.scene (service.state (none, w) before) l.message).answer = some answer := by
  have hanswer : (call, Ending.answered answer) ∈
      ((spawn capacity w).run service events).2.filter (·.2.isAnswer) := List.mem_filter.2 ⟨h, rfl⟩
  rw [answers_of_run] at hanswer
  obtain ⟨earlier, later, hreplies⟩ := List.append_of_mem hanswer
  obtain ⟨before, t, after, hturns, -, hreply, -⟩ := Service.turn_of_replies hreplies
  cases t with
  | edit change => cases hreply
  | handle l => exact ⟨before, l, after, hturns, Service.answer_of_reply hreply⟩

/-- The first project compile that succeeds gives every file of the project a fingerprint; whatever
happens then, there are those fingerprints and no others. -/
structure Steady [DecidableEq δ] (c : Compiler δ ω) (resolver : PathResolver) (capacity : Nat)
    (w : ω) (events : List (Event ω)) : Prop where
  session : ∀ s, ((spawn capacity w).run ⟨c.backend, resolver⟩ events).1.session = some s →
    s.Fingerprinted ∧ s.checker.size = s.project.sourceFiles.dedup.length
  /-- To a file compile, a file is stale for its fingerprint and never for want of one. -/
  stale : ∀ job path sources checker result,
    .compileFile job path sources checker result ∈
      Actor.calls ⟨c.backend, resolver⟩ capacity w events →
    ∀ file ∈ job.project.sourceFiles, ∃ known, checker.find? file = some known ∧
      ∀ content, c.isStale checker file content = decide (known ≠ c.digest content)
  /-- What a file compile replies is of files with a fingerprint, the one asked for among them. -/
  replies : ∀ call out,
    (call, .answered (.compile (.ok out))) ∈
      ((spawn capacity w).run ⟨c.backend, resolver⟩ events).2 →
    ∃ first rest l path s, events = first ++ .finish :: rest ∧ l.call = call ∧
      l.message = .compile path ∧
      ((spawn capacity w).run ⟨c.backend, resolver⟩ first).1.current = some l ∧
      ((spawn capacity w).run ⟨c.backend, resolver⟩ first).1.session = some s ∧
      Path.normalize path ∈ out.keys ∧ ∀ file ∈ out.keys, file ∈ s.checker.keys
  openings : ∀ call project out,
    (call, .answered (.init (.ok (project, out)))) ∈
      ((spawn capacity w).run ⟨c.backend, resolver⟩ events).2 →
    ∀ file, file ∈ out.keys ↔ file ∈ project.sourceFiles

variable [DecidableEq δ] (c : Compiler δ ω) (resolver : PathResolver) (capacity : Nat) (w : ω)
  (events : List (Event ω))

theorem fingerprinted_of_run :
    ∀ s, ((spawn capacity w).run ⟨c.backend, resolver⟩ events).1.session = some s →
      s.Fingerprinted := by
  intro s hs
  have hstate := congrArg Prod.fst (state_of_run ⟨c.backend, resolver⟩ (spawn capacity w) events)
  exact Service.fingerprinted_of_turns c resolver w _ s (hstate.symm.trans hs)

/-- Every run is steady. -/
theorem steady_of_run : Steady c resolver capacity w events where
  session s hs := by
    have h := fingerprinted_of_run c resolver capacity w events s hs
    exact ⟨h, h.size_eq⟩
  stale job path sources checker result hcall file hfile := by
    rw [calls_of_run, Service.calls_eq_scenes, List.mem_flatMap] at hcall
    obtain ⟨scene, hscene, hcall⟩ := hcall
    obtain ⟨before, l, after, -, rfl⟩ := Service.turn_of_scenes hscene
    have hbefore := Service.fingerprinted_of_turns c resolver w before
    obtain ⟨known, hknown⟩ :=
      (Service.plays_scene ⟨c.backend, resolver⟩ _ _ l.message).known hbefore hcall file hfile
    refine ⟨known, hknown, fun content => Bool.eq_iff_iff.2 ?_⟩
    simp [isStale, hknown]
  replies call out hout := by
    obtain ⟨before, l, after, hturns, hcall, hanswer⟩ := turn_of_answer hout
    obtain ⟨first, rest, hevents, hfirst, hcurrent⟩ := finish_of_turns hturns
    have hstate := congrArg Prod.fst (state_of_run ⟨c.backend, resolver⟩ (spawn capacity w) first)
    rw [hfirst] at hstate
    have hbefore := Service.fingerprinted_of_turns c resolver w before
    obtain ⟨path, s, hmessage, hsession, hkeys⟩ :=
      (Service.plays_scene ⟨c.backend, resolver⟩ _ _ l.message).output_of_compile hbefore hanswer
    exact ⟨first, rest, l, path, s, hevents, hcall, hmessage, hcurrent, hstate.trans hsession,
      hkeys⟩
  openings call project out hout := by
    obtain ⟨before, l, after, -, -, hanswer⟩ := turn_of_answer hout
    exact (Service.plays_scene ⟨c.backend, resolver⟩ _ _ l.message).output_of_init hanswer

/-- The second file is broken by an edit, so that a compile of the first fails, and so does one of a
project that is not there. -/
def mishaps : List (Turn (List (String × String))) :=
  [.handle ⟨1, .init ⟨"/p/P.fsproj", "/lib"⟩⟩, .edit fun files => ("/p/B.fs", "broken") :: files,
    .handle ⟨2, .compile "/p/A.fs"⟩, .handle ⟨3, .init ⟨"/p/Q.fsproj", "/lib"⟩⟩]

example : (((spawn 1 shelf).run echoService (mishaps.flatMap eventsOf)).1.session.map fun s =>
    s.checker.keys) = some ["/p/A.fs", "/p/B.fs"] := by decide +kernel

end Actor

end WarmCompile
