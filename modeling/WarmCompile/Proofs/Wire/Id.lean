import WarmCompile.Proofs.Except
import WarmCompile.Proofs.Json.Members
import WarmCompile.Serve.Incoming

/-!
The id of a line: a response bears it whether or not the line is taken for a request.
-/

namespace WarmCompile

open Json (Cause Fault)

/-! ### Members -/

/-- A text that stands under a key of an object with its repeated members dropped is the last one
that stood there. -/
theorem Json.find?_of_collapse {ms : List (String × Json)} {key s : String}
    (h : (Table.ofList (collapseMembers ms)).find? key = some (.text s)) :
    (Table.ofList ms).find? key = some (.text s) := by
  obtain ⟨before, after, hms, hafter⟩ := Table.find?_ofList_iff.1 h
  rw [collapseMembers_eq] at hms
  obtain ⟨before', rest, rfl, -, hrest⟩ := List.map_eq_append_iff.1 hms
  obtain ⟨⟨key', j⟩, after', rfl, hj, rfl⟩ := List.map_eq_cons_iff.1 hrest
  obtain ⟨rfl, hcollapse⟩ := Prod.mk.inj hj
  obtain rfl := eq_text_of_collapse hcollapse
  refine Table.find?_ofList_iff.2 ⟨before', after', rfl, ?_⟩
  rwa [List.map_map] at hafter

/-! ### Envelopes -/

namespace Envelope

variable {ms : List (String × Json)} {e e' : Envelope} {id : String}

/-- The id of an envelope is that of a member. -/
theorem mem_of_membersOf (h : Json.membersOf ofMember e ms = .ok e') (hid : e'.id = some id) :
    e.id = some id ∨ ("id", .text id) ∈ ms := by
  induction ms generalizing e with
  | nil =>
    cases h
    exact .inl hid
  | cons m ms ih =>
    obtain ⟨key, j⟩ := m
    obtain ⟨next, hnext, h⟩ := bind_eq_ok.1 h
    refine (ih h).elim (fun hid => ?_) fun hmem => .inr (List.mem_cons_of_mem _ hmem)
    unfold ofMember at hnext
    split at hnext
    · rename_i hkey
      split at hnext
      · cases hnext
      · obtain ⟨s, hs, hnext⟩ := bind_eq_ok.1 hnext
        cases hnext
        cases hid
        cases j with
        | text s' =>
          cases hs
          exact .inr (hkey ▸ List.mem_cons_self)
        | _ => cases hs
    · cases hnext
      exact .inl hid

/-- What is read from an object has the id that a member gives. -/
theorem ofJson_eq_ok {α β : Type} {noun : String} {make : String → α → β}
    {body : List (String × Json) → Except Cause α} {j : Json} {b : β}
    (h : ofJson noun make body j = .ok b) :
    ∃ ms id a, j = .object ms ∧ ("id", .text id) ∈ ms ∧ b = make id a := by
  cases j with
  | object ms =>
    obtain ⟨e, he, h⟩ := bind_eq_ok.1 h
    unfold complete at h
    split at h
    · cases h
    · rename_i id hid
      obtain ⟨a, -, h⟩ := bind_eq_ok.1 h
      cases h
      exact ⟨ms, id, a, rfl, (mem_of_membersOf he hid).resolve_left nofun, rfl⟩
  | _ => cases h

end Envelope

/-! ### Lines -/

/-- Parameters that are put in do not change the id. -/
theorem Request.mem_of_withParams {ms ms' : List (String × Json)} {j : Json}
    (h : withParams (.object ms) = .object ms') (hj : ("id", j) ∈ ms') : ("id", j) ∈ ms := by
  simp only [withParams] at h
  split at h
  · cases h
    exact hj
  · cases h
    have hkey : "id" ≠ "params" := by decide
    exact (Table.key_of_mem_insertEntry hj).resolve_left fun he => hkey (congrArg Prod.fst he)

/-- A request has the id that its line has for anyone who does not know it for a request. -/
theorem Request.idOf_of_parse {text : String} {r : Request} (h : parse text = .ok r) :
    Incoming.idOf text = r.id := by
  obtain ⟨j, hj, h⟩ := bind_eq_ok.1 h
  split at h
  · rename_i r' hr
    cases h
    obtain ⟨ms', id, call, hobject, hid, rfl⟩ := Envelope.ofJson_eq_ok hr
    cases j with
    | object ms =>
      have hfind := Table.find?_eq_some_iff.2 (mem_of_withParams hobject hid)
      unfold Incoming.idOf
      simp only [hj, Json.find?_of_collapse hfind]
    | _ => cases hobject
  · cases h

namespace Incoming

variable {line id : String}

/-- The line is an object, and a text is the last of its members that stand under the name. -/
def HasId (line id : String) : Prop :=
  ∃ before after,
    Json.parse (Text.trimmed line) = .ok (.object (before ++ ("id", .text id) :: after)) ∧
    "id" ∉ after.map (·.1)

/-- A response to the line goes by the line's own id, if it has one. -/
inductive GoesBy (line : String) : String → Prop where
  | own {id : String} (h : HasId line id) : GoesBy line id
  | unknown (h : ∀ id, ¬ HasId line id) : GoesBy line "unknown"

theorem hasId_iff : HasId line id ↔ ∃ ms, Json.parse (Text.trimmed line) = .ok (.object ms) ∧
    (Table.ofList ms).find? "id" = some (.text id) := by
  simp only [Table.find?_ofList_iff]
  constructor
  · rintro ⟨before, after, hparse, hafter⟩
    exact ⟨_, hparse, before, after, rfl, hafter⟩
  · rintro ⟨_, hparse, before, after, rfl, hafter⟩
    exact ⟨before, after, hparse, hafter⟩

theorem goesBy_idOf (line : String) : GoesBy line (idOf (Text.trimmed line)) := by
  unfold idOf
  split
  · rename_i ms hparse
    split
    · rename_i id hfind
      exact .own (hasId_iff.2 ⟨ms, hparse, hfind⟩)
    · rename_i hfind
      refine .unknown fun id hid => ?_
      obtain ⟨ms', hparse', hfind'⟩ := hasId_iff.1 hid
      cases hparse.symm.trans hparse'
      exact hfind id hfind'
  · rename_i hparse
    refine .unknown fun id hid => ?_
    obtain ⟨ms, hparse', -⟩ := hasId_iff.1 hid
    exact hparse ms hparse'

/-- A line that is answered at once is answered under its id. -/
theorem GoesBy.of_refused {r : Response} (h : ofLine line = .refused r) : GoesBy line r.id := by
  simp only [ofLine] at h
  split at h
  · cases h
  · split at h
    · cases h
    · have hid : r.id = idOf (Text.trimmed line) := by
        rw [← refused.inj h, Response.rpc]
      exact hid ▸ goesBy_idOf line

/-- A line that is a request has its id. -/
theorem GoesBy.of_request {r : Request} (h : ofLine line = .request r) : GoesBy line r.id := by
  simp only [ofLine] at h
  split at h
  · cases h
  · split at h
    · rename_i hparse
      cases h
      exact Request.idOf_of_parse hparse ▸ goesBy_idOf line
    · cases h

theorem ofLine_eq_blank : ofLine line = .blank ↔ (Text.trimmed line).isEmpty = true := by
  simp only [ofLine]
  split
  · simp [*]
  · split <;> simp [*]

end Incoming

end WarmCompile
