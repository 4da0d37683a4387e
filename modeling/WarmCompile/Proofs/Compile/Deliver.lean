import WarmCompile.Compile.External
import WarmCompile.Proofs.Compile.Source
import WarmCompile.Proofs.Table

/-!
What a delivery that succeeds has done, and when it succeeds.
-/

namespace WarmCompile.Compiler

variable {δ ω : Type} {c : Compiler δ ω} {job : Job}
  {due : String → String → Bool} {paths : List String} {r r' : SourceReader}
  {done : List Delivered} {w w' : ω} {known : Table δ} {path : String}
  {emission : String → String → Except CompileError String}

/-- What is emitted for a file depends on its path and its content alone. -/
def Emits (c : Compiler δ ω) (job : Job)
    (emission : String → String → Except CompileError String) : Prop :=
  ∀ path content w, (c.emit job path content w).1 = emission path content

/-- The code of a file where the command gives the same answer to the same invocation. -/
def emissionOf (c : Compiler δ ω) (job : Job)
    (reply : Invocation → Except IoError Completion) (path content : String) :
    Except CompileError String :=
  match c.settings.command with
  | none => .error .noCompilerCommand
  | some program =>
    match reply (c.command program path content job) with
    | .error e => .error (.emit path (.notStarted program e))
    | .ok done => codeOf program path done

theorem emits_of_deterministic {reply : Invocation → Except IoError Completion}
    (hplain : ∀ path, job.resolver.precompiled path = none)
    (hrun : ∀ inv w, (c.host.run inv w).1 = reply inv) : c.Emits job (c.emissionOf job reply) := by
  intro path content w
  cases hc : c.settings.command with
  | none => simp only [emit, emissionOf, hplain, hc]
  | some program =>
    have hr := hrun (c.command program path content job) w
    cases he : c.host.run (c.command program path content job) w with
    | mk result w' =>
      rw [he] at hr
      simp only [emit, emissionOf, hplain, hc, he, ← hr]
      cases result with
      | error => rfl
      | ok => rfl

/-- A successful delivery: every file was read, and the files that were due, and no others, were
compiled from what the reader holds. -/
structure Delivery (c : Compiler δ ω) (job : Job) (due : String → String → Bool)
    (paths : List String) (r r' : SourceReader) (done : List Delivered) : Prop where
  reader : r.Extends r'
  complete : ∀ path ∈ paths, ∃ content, r'.held.find? path = some content ∧
    (due path content → path ∈ done.map (·.path))
  sound : ∀ d ∈ done, d.path ∈ paths ∧ r'.held.find? d.path = some d.content ∧
    due d.path d.content ∧ ∃ w, (c.emit job d.path d.content w).1 = .ok d.code

theorem delivery_of_ok (h : c.deliver job due paths r w = (.ok done, r', w')) :
    c.Delivery job due paths r r' done := by
  induction paths generalizing r w done with
  | nil =>
    cases h
    exact ⟨.refl _, nofun, nofun⟩
  | cons path paths ih =>
    simp only [deliver] at h
    split at h
    · cases h
    · rename_i content r₁ hread
      have hr := SourceReader.extends_read hread
      have hc := SourceReader.held_of_read hread
      split at h
      · rename_i hdue
        split at h
        · cases h
        · rename_i code w₁ hemit
          split at h
          · cases h
          · rename_i rest r₂ w₂ hrest
            cases h
            have hd := ih hrest
            have hc' := hd.reader.held hc
            refine ⟨hr.trans hd.reader, ?_, ?_⟩
            · intro p hp
              rcases List.mem_cons.1 hp with he | hp
              · exact ⟨content, he ▸ hc', fun _ => he ▸ List.mem_cons_self⟩
              · obtain ⟨x, hx, hdone⟩ := hd.complete p hp
                exact ⟨x, hx, fun hp => List.mem_cons_of_mem _ (hdone hp)⟩
            · intro d hd'
              rcases List.mem_cons.1 hd' with he | hd'
              · rw [he]
                exact ⟨List.mem_cons_self, hc', hdue, w, congrArg Prod.fst hemit⟩
              · obtain ⟨hp, hrest⟩ := hd.sound d hd'
                exact ⟨List.mem_cons_of_mem _ hp, hrest⟩
      · rename_i hdue
        have hd := ih h
        refine ⟨hr.trans hd.reader, ?_, ?_⟩
        · intro p hp
          rcases List.mem_cons.1 hp with he | hp
          · exact ⟨content, he ▸ hd.reader.held hc, fun hp => absurd (he ▸ hp) hdue⟩
          · exact hd.complete p hp
        · intro d hd'
          obtain ⟨hp, hrest⟩ := hd.sound d hd'
          exact ⟨List.mem_cons_of_mem _ hp, hrest⟩

/-- A reader that holds every file is not changed, and neither the disk nor the system matters. -/
theorem deliver_of_held (due : String → String → Bool)
    (hfiles : ∀ path ∈ paths, path ∈ r.files)
    (hcode : ∀ path ∈ paths, ∃ content, r.held.find? path = some content ∧
      ∀ w, ∃ code, (c.emit job path content w).1 = .ok code) (w : ω) :
    ∃ done w', c.deliver job due paths r w = (.ok done, r, w') := by
  induction paths generalizing w with
  | nil => exact ⟨[], w, rfl⟩
  | cons path paths ih =>
    have ih' := ih (fun p hp => hfiles p (List.mem_cons_of_mem _ hp))
      (fun p hp => hcode p (List.mem_cons_of_mem _ hp))
    obtain ⟨content, hheld, hemit⟩ := hcode path List.mem_cons_self
    have hread : r.read (c.host.disk w) path = _ :=
      SourceReader.read_of_held (hfiles path List.mem_cons_self) hheld
    simp only [deliver, hread]
    split
    · obtain ⟨code, hcode⟩ := hemit w
      cases he : c.emit job path content w with
      | mk result w₁ =>
        rw [he] at hcode
        cases hcode
        obtain ⟨done, w', hd⟩ := ih' w₁
        exact ⟨⟨path, content, code⟩ :: done, w', by simp only [hd]⟩
    · exact ih' w

theorem find?_record_of_not_mem (hp : path ∉ done.map (·.path)) :
    (c.record known done).find? path = known.find? path := by
  have h := Table.find?_insertAll_of_not_mem (l := done.map fun d => (d.path, c.digest d.content))
    known (by simpa using hp)
  rwa [Table.insertAll, List.foldl_map] at h

theorem find?_outputOf_of_not_mem (hp : path ∉ done.map (·.path)) :
    (outputOf done).find? path = none :=
  Table.find?_insertAll_of_not_mem .empty (by simpa using hp)

theorem Delivery.find?_record (hd : c.Delivery job due paths r r' done) (known : Table δ)
    (hp : path ∈ done.map (·.path)) : ∃ content, r'.held.find? path = some content ∧
      (c.record known done).find? path = some (c.digest content) := by
  obtain ⟨v, hv, hf⟩ := Table.find?_insertAll_of_mem
    (l := done.map fun d => (d.path, c.digest d.content)) known (by simpa using hp)
  rw [Table.insertAll, List.foldl_map] at hf
  obtain ⟨d, hdone, he⟩ := List.mem_map.1 hv
  cases he
  exact ⟨d.content, (hd.sound d hdone).2.1, hf⟩

theorem Delivery.find?_outputOf (hd : c.Delivery job due paths r r' done)
    (hemit : c.Emits job emission) (hp : path ∈ done.map (·.path)) :
    ∃ content code, r'.held.find? path = some content ∧ emission path content = .ok code ∧
      (outputOf done).find? path = some code := by
  obtain ⟨v, hv, hf⟩ := Table.find?_insertAll_of_mem
    (l := done.map fun d => (d.path, d.code)) .empty (by simpa using hp)
  obtain ⟨d, hdone, he⟩ := List.mem_map.1 hv
  cases he
  obtain ⟨_, hheld, _, w, hw⟩ := hd.sound d hdone
  exact ⟨d.content, d.code, hheld, (hemit _ _ w).symm.trans hw, hf⟩

theorem isSome_find?_outputOf :
    ((outputOf done).find? path).isSome = true ↔ path ∈ done.map (·.path) := by
  constructor
  · intro hsome
    apply Classical.byContradiction
    intro hnot
    rw [find?_outputOf_of_not_mem hnot] at hsome
    cases hsome
  · intro hmem
    obtain ⟨code, -, hfind⟩ := Table.find?_insertAll_of_mem (k := path)
      (l := done.map fun d => (d.path, d.code)) .empty (by simpa using hmem)
    have hout : (outputOf done).find? path = some code := hfind
    rw [hout]
    rfl

/-- A fingerprint is that of the content whose code goes out, or the one from before. -/
theorem Delivery.find?_record_eq (hd : c.Delivery job due paths r r' done) (known : Table δ)
    (path : String) : (c.record known done).find? path =
      if ((outputOf done).find? path).isSome then (r'.held.find? path).map c.digest
      else known.find? path := by
  by_cases hdone : path ∈ done.map (·.path)
  · obtain ⟨content, hheld, hrecord⟩ := hd.find?_record known hdone
    rw [if_pos (isSome_find?_outputOf.2 hdone), hrecord, hheld]
    rfl
  · rw [if_neg fun hsome => hdone (isSome_find?_outputOf.1 hsome), find?_record_of_not_mem hdone]

/-- The code of what is read goes out for the files that are due, and for no others. -/
theorem Delivery.find?_outputOf_iff (hd : c.Delivery job due paths r r' done)
    (hemit : c.Emits job emission) (hpath : path ∈ paths) :
    ∃ content, r'.held.find? path = some content ∧
      (due path content = true → ∃ code, emission path content = .ok code ∧
        (outputOf done).find? path = some code) ∧
      (due path content = false → (outputOf done).find? path = none) := by
  obtain ⟨content, hheld, hdue⟩ := hd.complete path hpath
  refine ⟨content, hheld, ?_, ?_⟩
  · intro h
    obtain ⟨content', code, hheld', hcode, hout⟩ := hd.find?_outputOf hemit (hdue h)
    obtain rfl := Option.some.inj (hheld.symm.trans hheld')
    exact ⟨code, hcode, hout⟩
  · intro h
    apply find?_outputOf_of_not_mem
    intro hdone
    obtain ⟨d, hd', rfl⟩ := List.mem_map.1 hdone
    obtain ⟨-, hheld', hdue', -⟩ := hd.sound d hd'
    obtain rfl := Option.some.inj (hheld.symm.trans hheld')
    exact Bool.false_ne_true (h.symm.trans hdue')

end WarmCompile.Compiler
