import WarmCompile.Proofs.Wire.Envelope
import WarmCompile.Serve.Incoming

/-!
A request is read from its line as it was, whatever texts it holds.
-/

namespace WarmCompile

open Json (Legible Shape)

/-! ### Parameters -/

theorem PingParams.fits (p : PingParams) : PingParams.shape.Fits p := by
  obtain ⟨message⟩ := p
  refine ⟨rfl, by decide, ?_, ?_, trivial⟩
  · cases message with
    | none => trivial
    | some m => exact ⟨nofun, trivial⟩
  · cases message with
    | none => exact fun _ => rfl
    | some m => exact nofun

theorem InitParams.fits (p : InitParams) : InitParams.shape.Fits p :=
  ⟨rfl, by decide, trivial, nofun, trivial, nofun, trivial⟩

theorem CompileParams.fits (p : CompileParams) : CompileParams.shape.Fits p :=
  ⟨rfl, by decide, trivial, nofun, trivial⟩

namespace Call

theorem legible_params (c : Call) : Legible 1 c.paramsToJson := by
  cases c with
  | ping p => exact PingParams.shape.legible p p.fits
  | init p => exact InitParams.shape.legible p p.fits
  | compile p => exact CompileParams.shape.legible p p.fits

/-- The parameters with their members in order of the keys. -/
theorem paramsOf_collapse (c : Call) : paramsOf c.method c.paramsToJson.collapse = .ok c := by
  cases c with
  | ping p =>
    obtain ⟨message⟩ := p
    cases message <;> rfl
  | init p =>
    have hsorted : (InitParams.shape.toJson p).collapse =
        .object [("fableLibrary", .text p.library), ("project", .text p.project)] := by
      have hkeys : "fableLibrary" < "project" := by decide
      refine congrArg Json.object (Table.entries_ofList_of_perm (.swap _ _ _) ?_)
      exact .cons (fun m hm => (List.mem_singleton.1 hm) ▸ hkeys) (.cons nofun .nil)
    change paramsOf .init (InitParams.shape.toJson p).collapse = _
    rw [hsorted]
    rfl
  | compile p => rfl

end Call

/-! ### Request lines -/

namespace Request

theorem legible (r : Request) : Legible 2 r.toJson := by
  refine .object fun m hm => ?_
  simp only [List.mem_cons, List.not_mem_nil, or_false] at hm
  rcases hm with rfl | rfl | rfl
  · exact .text r.id
  · exact .text r.call.method.name
  · exact r.call.legible_params

theorem unbroken_compact (r : Request) : Lines.Unbroken r.toJson.compact :=
  Json.unbroken_compact r.legible

theorem trimmed_compact (r : Request) : Text.trimmed r.toJson.compact = r.toJson.compact :=
  Json.trimmed_compact_object _

/-- A request is read from its line as it was. -/
theorem parse_compact (r : Request) : parse r.toJson.compact = .ok r := by
  have hparse := Json.parse_compact (r.legible.mono (by decide))
  have hsorted : r.toJson.collapse = .object [("id", .text r.id),
      ("method", .text r.call.method.name),
      ("params", r.call.paramsToJson.collapse)] := by
    refine congrArg Json.object (Table.entries_ofList ?_)
    have hid : "id" < "method" := by decide
    have hmethod : "method" < "params" := by decide
    refine .cons (fun m hm => ?_) (.cons (fun m hm => ?_) (.cons nofun .nil))
    · rcases List.mem_cons.1 hm with rfl | hm
      · exact hid
      · exact (List.mem_singleton.1 hm) ▸ String.lt_trans hid hmethod
    · exact (List.mem_singleton.1 hm) ▸ hmethod
  have hcall : Call.ofMembers [("method", .text r.call.method.name),
      ("params", r.call.paramsToJson.collapse)] = .ok r.call :=
    Call.adjacency.ofMembers_pair (by decide) (Method.lookup_cases r.call.method)
      r.call.paramsOf_collapse
  have hobject := Envelope.ofJson_object "struct Request" Request.mk r.id (by simp) hcall
  have hparams : withParams r.toJson.collapse = r.toJson.collapse := by
    rw [hsorted]
    rfl
  simp only [parse, hparse, hparams, bind, Except.bind]
  rw [hsorted, hobject]
  rfl

/-- A line that was written for a request is taken for that request. -/
theorem ofLine_compact (r : Request) : Incoming.ofLine r.toJson.compact = .request r := by
  have hne : r.toJson.compact.isEmpty = false := by
    exact String.isEmpty_eq_false_iff.2 fun he => by
      have hnil : r.toJson.print = [] := String.ofList_eq_empty_iff.1 he
      cases hnil
  simp only [Incoming.ofLine, r.trimmed_compact, hne, parse_compact]
  rfl

end Request

end WarmCompile
