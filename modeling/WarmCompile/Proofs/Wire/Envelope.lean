import WarmCompile.Proofs.Json.Shape
import WarmCompile.Proofs.Text.Blank
import WarmCompile.Proofs.Wire.Lines
import WarmCompile.Wire.Request

/-!
What requests and responses have in common: an object on one line, with an id ahead of other members,
and a case told by its name with its content behind it.
-/

namespace WarmCompile

open Json (Cause Fault Parsed Legible Takes)

/-! ### An object on one line -/

theorem Json.unbroken_compact {d : Nat} {ms : List (String × Json)} (h : Legible d (.object ms)) :
    Lines.Unbroken (Json.object ms).compact where
  noFeed hm := by
    rw [compact, String.toList_ofList] at hm
    exact absurd (le_of_mem_print h _ hm) (by decide)
  noReturn hlast := by
    rw [compact, String.toList_ofList] at hlast
    exact absurd (le_of_mem_print h _ (List.mem_of_getLast? hlast)) (by decide)

theorem Json.trim_print_object (ms : List (String × Json)) :
    Text.trim (Json.object ms).print = (Json.object ms).print := by
  have hlast : (Json.object ms).print.getLast? = some '\x7d' := by
    rw [print, List.getLast?_cons, getLast?_printMembers]
    rfl
  apply Text.trim_eq_self_iff.2
  constructor
  · intro c hc
    cases hc
    rfl
  · intro c hc
    cases hlast.symm.trans hc
    rfl

theorem Json.trimmed_compact_object (ms : List (String × Json)) :
    Text.trimmed (Json.object ms).compact = (Json.object ms).compact := by
  rw [Text.trimmed, compact, String.toList_ofList, trim_print_object]

/-! ### A case and its content -/

theorem Json.Adjacency.ofMembers_pair {κ α : Type} (a : Json.Adjacency κ)
    {content : κ → Json → Except Cause α} {name : String} {tag : κ} {j : Json} {v : α}
    (hkeys : a.contentKey ≠ a.tagKey) (htag : a.cases.lookup name = some tag)
    (hv : content tag j = .ok v) :
    a.ofMembers content [(a.tagKey, .text name), (a.contentKey, j)] = .ok v := by
  have hfirst : a.ofMember content start a.tagKey (.text name) = .ok ⟨some tag, none, none⟩ := by
    simp only [ofMember, start, if_true, Option.isSome_none, Bool.false_eq_true, if_false,
      Json.choiceOf_text htag, bind, Except.bind]
    rfl
  have hsecond : a.ofMember content ⟨some tag, none, none⟩ a.contentKey j =
      .ok ⟨some tag, none, some v⟩ := by
    simp only [ofMember, if_neg hkeys, if_true, Option.isSome_none, Bool.or_false,
      Bool.false_eq_true, if_false, hv, bind, Except.bind]
    rfl
  simp only [ofMembers, Json.membersOf, hfirst, hsecond, bind, Except.bind]
  rfl

theorem Method.lookup_cases (m : Method) : Method.cases.lookup m.name = some m := by
  cases m <;> rfl

/-! ### Envelopes -/

namespace Envelope

variable {d : Nat} {ms : List (String × Json)}

theorem takes_others (id : String) (hkeys : ∀ m ∈ ms, m.1 ≠ "id") (hms : ∀ m ∈ ms, Legible d m.2)
    (others : List (String × Json)) :
    Takes (readMember d) ⟨some id, others⟩ ms ⟨some id, others ++ ms⟩ := by
  induction ms generalizing others with
  | nil =>
    rw [List.append_nil]
    exact .nil
  | cons m ms ih =>
    obtain ⟨key, j⟩ := m
    have hkey : key ≠ "id" := hkeys (key, j) List.mem_cons_self
    have hlater := ih (fun m hm => hkeys m (List.mem_cons_of_mem _ hm))
      (fun m hm => hms m (List.mem_cons_of_mem _ hm)) (others ++ [(key, j)])
    rw [List.append_assoc] at hlater
    refine .cons (fun rest hrest => ?_) hlater
    have hcolon : Json.readColon (':' :: (j.print ++ rest)) = .ok (j.print ++ rest) := rfl
    have hread := Json.readValue_print (hms (key, j) List.mem_cons_self) hrest
    simp only [readMember, if_neg hkey, hcolon, hread, bind, Except.bind]
    rfl

theorem takes_members (id : String) (hkeys : ∀ m ∈ ms, m.1 ≠ "id")
    (hms : ∀ m ∈ ms, Legible d m.2) :
    Takes (readMember d) empty (("id", .text id) :: ms) ⟨some id, ms⟩ := by
  refine .cons (fun rest _ => ?_) (takes_others id hkeys hms [])
  have hcolon : Json.readColon (':' :: ((Json.text id).print ++ rest)) =
      .ok ('"' :: ((Json.quote id).tail ++ rest)) := rfl
  have htext :
      Json.readTextOf "a string" ('"' :: ((Json.quote id).tail ++ rest)) = .ok (id, rest) :=
    Json.readString_quote id rest
  simp only [readMember, if_true, empty, Option.isSome_none, Bool.false_eq_true, if_false, hcolon,
    htext, bind, Except.bind]
  rfl

theorem read_object {α β : Type} (noun : String) (make : String → α → β)
    (body : List (String × Json) → Except Cause α) (d : Nat) (ms : List (String × Json))
    (rest : List Char) :
    read noun make body (d + 1) ((Json.object ms).print ++ rest) = (Json.closeObject do
      let r := Json.printMembers true ms ++ rest
      let (e, r) ← Json.readMembers (readMember d) (r.length + 1) true empty r
      match complete make body e with
      | .ok b => return (b, r)
      | .error cause => Json.failOpen cause r) :=
  rfl

theorem read_print {α β : Type} (noun : String) (make : String → α → β) (id : String)
    (rest : List Char) {body : List (String × Json) → Except Cause α} {a : α}
    (hkeys : ∀ m ∈ ms, m.1 ≠ "id")
    (hms : ∀ m ∈ ms, Legible d m.2) (hbody : body ms = .ok a) :
    read noun make body (d + 1) ((Json.object (("id", .text id) :: ms)).print ++ rest) =
      .ok (make id a, rest) := by
  have hlength := Json.length_le_printMembers (("id", .text id) :: ms) true
  have hmembers := Json.readMembers_print (takes_members id hkeys hms)
    (by rw [List.length_append]; omega :
      _ < (Json.printMembers true (("id", .text id) :: ms) ++ rest).length + 1) true rest
  have hcomplete : complete make body ⟨some id, ms⟩ = .ok (make id a) := by
    simp only [complete, hbody, bind, Except.bind]
    rfl
  rw [read_object]
  simp only [hmembers, hcomplete, bind, Except.bind]
  rfl

theorem membersOf_others (hkeys : ∀ m ∈ ms, m.1 ≠ "id") (e : Envelope) :
    Json.membersOf ofMember e ms = .ok { e with others := e.others ++ ms } := by
  induction ms generalizing e with
  | nil => simp only [Json.membersOf, List.append_nil]
  | cons m ms ih =>
    obtain ⟨key, j⟩ := m
    have hkey : key ≠ "id" := hkeys (key, j) List.mem_cons_self
    have hlater := ih (fun m hm => hkeys m (List.mem_cons_of_mem _ hm))
      { e with others := e.others ++ [(key, j)] }
    simp only [Json.membersOf, ofMember, if_neg hkey, bind, Except.bind, hlater, List.append_assoc,
      List.singleton_append]

theorem ofJson_object {α β : Type} (noun : String) (make : String → α → β) (id : String)
    {body : List (String × Json) → Except Cause α} {a : α} (hkeys : ∀ m ∈ ms, m.1 ≠ "id")
    (hbody : body ms = .ok a) :
    ofJson noun make body (.object (("id", .text id) :: ms)) = .ok (make id a) := by
  have hothers := membersOf_others hkeys ⟨some id, []⟩
  have hmembers : Json.membersOf ofMember empty (("id", .text id) :: ms) = .ok ⟨some id, ms⟩ :=
    hothers
  simp only [ofJson, hmembers, complete, hbody, bind, Except.bind]
  rfl

end Envelope

end WarmCompile
