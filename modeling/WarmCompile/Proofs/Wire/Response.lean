import WarmCompile.Proofs.Wire.Envelope
import WarmCompile.Wire.Response

/-!
A response is read from its line as it was: neither the choice between error and result nor the tags
inside take one for another.
-/

namespace WarmCompile

open Json (Legible Shape Fields)

/-! ### Outcomes -/

theorem PingResult.fits (r : PingResult) : PingResult.shape.Fits r :=
  ⟨rfl, by decide, trivial, nofun, trivial⟩

theorem ResolvedProject.fits (p : ResolvedProject) : ResolvedProject.shape.Fits p := by
  refine ⟨rfl, by decide, trivial, nofun, fun _ _ => trivial, nofun, fun _ _ => trivial, nofun, ?_,
    nofun, fun _ _ => trivial, nofun, fun _ _ => trivial, nofun, trivial⟩
  cases p.targetFramework with
  | none => trivial
  | some t => exact ⟨nofun, trivial⟩

theorem InitResult.fits (r : InitResult) : InitResult.shape.Fits r :=
  ⟨rfl, by decide, r.project.fits, nofun, trivial, nofun, trivial⟩

theorem CompileResult.fits (r : CompileResult) : CompileResult.shape.Fits r :=
  ⟨rfl, by decide, trivial, nofun, trivial⟩

namespace Outcome

variable {α : Type} {shape : Shape α}

/-- What an outcome holds fits its shape. -/
def Fits (shape : Shape α) : Outcome α → Prop
  | .success a => shape.Fits a
  | .error _ => True

theorem legible (o : Outcome α) (h : o.Fits shape) :
    Legible (shape.depth + 1) (o.toJson shape) := by
  cases o with
  | success a =>
    refine .object fun m hm => ?_
    rcases List.mem_cons.1 hm with rfl | hm
    · exact .text "success"
    · exact (List.mem_singleton.1 hm) ▸ shape.legible a h
  | error e =>
    refine .object fun m hm => ?_
    rcases List.mem_cons.1 hm with rfl | hm
    · exact .text "error"
    · exact (List.mem_singleton.1 hm) ▸ .text e

theorem fits_of_all (hall : ∀ a, shape.Fits a) (o : Outcome α) : o.Fits shape := by
  cases o with
  | success a => exact hall a
  | error e => trivial

theorem fits_dataFields {a : α} (h : shape.Fits a) : (dataFields shape).Fits (a, ()) :=
  ⟨h, nofun, trivial⟩

theorem ofJson_toJson (o : Outcome α) (h : o.Fits shape) :
    ofJson shape (o.toJson shape) = .ok o := by
  cases o with
  | success a =>
    have hdata :
        (dataFields shape).ofMembers ((dataFields shape).toMembers (a, ())) = .ok (a, ()) :=
      Fields.ofMembers_eq (List.nodup_singleton "data") (fits_dataFields h)
    have htag : ofJson shape ((success a).toJson shape) =
        ofMembers shape .success ((dataFields shape).toMembers (a, ())) := rfl
    rw [htag]
    simp only [ofMembers, hdata, bind, Except.bind]
    rfl
  | error e => rfl

end Outcome

/-! ### Errors -/

namespace CallError

/-- The code of an error is a whole number of 32 bits. -/
def Fits : CallError → Prop
  | .rpc code _ => -0x80000000 ≤ code ∧ code < 0x80000000
  | _ => True

theorem fits_rpcFields {code : Int} {message : String} (h : (rpc code message).Fits) :
    rpcFields.Fits (code, message, ()) :=
  ⟨h, nofun, trivial, nofun, trivial⟩

theorem legible {e : CallError} (h : e.Fits) : Legible 2 e.toJson := by
  cases e with
  | rpc code message =>
    refine .object fun m hm => ?_
    rw [List.mem_singleton.1 hm]
    exact .object (rpcFields.legible _ (fits_rpcFields h))
  | noResult => exact .text "NoResult"
  | _ text => exact .object fun m hm => (List.mem_singleton.1 hm) ▸ .text text

theorem ofJson_toJson {e : CallError} (h : e.Fits) : ofJson e.toJson = .ok e := by
  cases e with
  | rpc code message =>
    have hfields : rpcFields.ofMembers (rpcFields.toMembers (code, message, ())) =
        .ok (code, message, ()) := Fields.ofMembers_eq (by decide) (fits_rpcFields h)
    change contentOf .rpc (some (.object (rpcFields.toMembers (code, message, ())))) = _
    simp only [contentOf, hfields, bind, Except.bind]
    rfl
  | _ => rfl

end CallError

/-! ### Responses -/

namespace Reply

theorem legible (r : Reply) : Legible 4 r.resultToJson := by
  cases r with
  | ping r => exact (PingResult.shape.legible r r.fits).mono (by decide)
  | init o => exact (o.legible (o.fits_of_all InitResult.fits)).mono (by decide)
  | compile o => exact (o.legible (o.fits_of_all CompileResult.fits)).mono (by decide)

theorem resultOf_resultToJson (r : Reply) : resultOf r.method r.resultToJson = .ok r := by
  cases r with
  | ping r =>
    have hread := PingResult.shape.ofJson_toJson r r.fits
    simp only [resultOf, method, resultToJson, hread, bind, Except.bind]
    rfl
  | init o =>
    have hread := o.ofJson_toJson (o.fits_of_all InitResult.fits)
    simp only [resultOf, method, resultToJson, hread, bind, Except.bind]
    rfl
  | compile o =>
    have hread := o.ofJson_toJson (o.fits_of_all CompileResult.fits)
    simp only [resultOf, method, resultToJson, hread, bind, Except.bind]
    rfl

theorem ofMembers_toMembers (r : Reply) : ofMembers r.toMembers = .ok r :=
  adjacency.ofMembers_pair (by decide) (Method.lookup_cases r.method) r.resultOf_resultToJson

end Reply

namespace Response

/-- What stands in a response besides its id. -/
def members (r : Response) : List (String × Json) :=
  match r.body with
  | .ok reply => reply.toMembers
  | .error e => [("error", e.toJson)]

theorem toJson_eq (r : Response) : r.toJson = .object (("id", .text r.id) :: r.members) := by
  unfold toJson members
  cases r.body <;> rfl

/-- The code of an error is a whole number of 32 bits. -/
def Fits (r : Response) : Prop :=
  ∀ e, r.body = .error e → e.Fits

variable {r : Response}

theorem key_of_mem_members : ∀ m ∈ r.members, m.1 ≠ "id" := by
  unfold members
  cases r.body with
  | ok reply => simp [Reply.toMembers]
  | error e => simp

theorem Fits.legible_members (h : r.Fits) : ∀ m ∈ r.members, Legible 4 m.2 := by
  unfold members
  cases hbody : r.body with
  | ok reply =>
    intro m hm
    simp only [Reply.toMembers, List.mem_cons, List.not_mem_nil, or_false] at hm
    rcases hm with rfl | rfl
    · exact .text reply.method.name
    · exact reply.legible
  | error e =>
    intro m hm
    rw [List.mem_singleton.1 hm]
    exact (CallError.legible (h e hbody)).mono (by decide)

theorem Fits.legible (h : r.Fits) : Legible 5 r.toJson := by
  rw [toJson_eq]
  refine .object fun m hm => ?_
  rcases List.mem_cons.1 hm with rfl | hm
  · exact .text r.id
  · exact h.legible_members m hm

theorem Fits.bodyOf_members (h : r.Fits) : bodyOf r.members = .ok r.body := by
  unfold members
  cases hbody : r.body with
  | ok reply =>
    have hnone : Json.membersOf errorMember none reply.toMembers = .ok none := rfl
    simp only [bodyOf, hnone, reply.ofMembers_toMembers]
  | error e =>
    have hsome : Json.membersOf errorMember none [("error", e.toJson)] = .ok (some e) := by
      simp only [Json.membersOf, errorMember, if_true, Option.isSome_none, Bool.false_eq_true,
        if_false, CallError.ofJson_toJson (h e hbody), bind, Except.bind]
      rfl
    simp only [bodyOf, hsome]

/-- A response is read from its line as it was. -/
theorem Fits.parse_toLine (h : r.Fits) : parse r.toLine = .ok r := by
  have hread := Envelope.read_print "struct Response" Response.mk r.id []
    key_of_mem_members (fun m hm => (h.legible_members m hm).mono (by decide : 4 ≤ 126))
    h.bodyOf_members
  rw [List.append_nil, ← toJson_eq] at hread
  have hlimit : Json.depthLimit = 126 + 1 := rfl
  rw [parse, toLine, Json.compact, String.toList_ofList, hlimit, hread]
  rfl

theorem Fits.unbroken (h : r.Fits) : Lines.Unbroken r.toLine := by
  have hlegible := h.legible
  rw [toLine, toJson_eq] at *
  exact Json.unbroken_compact hlegible

end Response

end WarmCompile
