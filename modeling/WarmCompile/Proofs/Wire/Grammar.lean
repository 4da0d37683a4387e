import WarmCompile.Proofs.Json.Members
import WarmCompile.Proofs.Json.Taken
import WarmCompile.Proofs.Wire.Envelope

/-!
How a request is stated. One grammar serves two readers: where every value under a key counts, it
tells what is read strictly; where only the last one counts and parameters may be left out, it tells
what a line is taken for.
-/

namespace WarmCompile

open Json (Cause Fault Parsed Distinct Fills Fields allUnder lastUnder)

/-! ### Envelopes -/

namespace Envelope

variable {α β : Type} {noun : String} {make : String → α → β}
  {body : List (String × Json) → Except Cause α} {e e' : Envelope} {d : Nat}
  {j : Json} {ms : List (String × Json)} {b : β} {cs rest : List Char}

theorem ofMember_id : ofMember e "id" j = .ok e' ↔
    e.id = none ∧ ∃ s, Json.textOf j = .ok s ∧ e' = ⟨some s, e.others⟩ := by
  obtain ⟨_ | id, others⟩ := e
  · constructor
    · intro h
      obtain ⟨s, hs, h⟩ := bind_eq_ok.1 h
      cases h
      exact ⟨rfl, s, hs, rfl⟩
    · rintro ⟨-, s, hs, rfl⟩
      exact bind_eq_ok.2 ⟨s, hs, rfl⟩
  · exact ⟨nofun, nofun⟩

/-- The id is the one value under its key, and the other members stay as they are. -/
theorem membersOf_eq_ok : Json.membersOf ofMember e ms = .ok e' ↔
    Fills Json.textOf e.id (allUnder ms "id") e'.id ∧
      e'.others = e.others ++ ms.filter (·.1 ≠ "id") := by
  induction ms generalizing e with
  | nil =>
    obtain ⟨id, others⟩ := e
    obtain ⟨id', others'⟩ := e'
    constructor
    · intro h
      cases h
      exact ⟨.inl ⟨rfl, rfl⟩, (List.append_nil _).symm⟩
    · rintro ⟨⟨-, hid⟩ | ⟨_, _, h, -⟩, hothers⟩
      · obtain rfl : id' = id := hid
        obtain rfl : others' = others ++ [] := hothers
        rw [List.append_nil]
        rfl
      · cases h
  | cons m ms ih =>
    obtain ⟨key, j⟩ := m
    rw [Json.allUnder_cons]
    by_cases hkey : key = "id"
    · subst hkey
      rw [if_pos rfl, List.filter_cons_of_neg (by simp), Json.fills_cons]
      constructor
      · intro h
        obtain ⟨e₁, hfirst, h⟩ := bind_eq_ok.1 h
        obtain ⟨hid, s, hs, rfl⟩ := ofMember_id.1 hfirst
        obtain ⟨hfills, hothers⟩ := ih.1 h
        exact ⟨⟨hid, s, hs, hfills⟩, hothers⟩
      · rintro ⟨⟨hid, s, hs, hfills⟩, hothers⟩
        exact bind_eq_ok.2 ⟨_, ofMember_id.2 ⟨hid, s, hs, rfl⟩, ih.2 ⟨hfills, hothers⟩⟩
    · have hfirst : ofMember e key j = .ok ⟨e.id, e.others ++ [(key, j)]⟩ := if_neg hkey
      rw [if_neg hkey, List.filter_cons_of_pos (by simpa using hkey), Json.membersOf, hfirst]
      refine ih.trans (and_congr_right fun _ => ?_)
      rw [List.append_assoc]
      rfl

/-- An object is taken for what the members other than its only id are. -/
theorem ofJson_eq_ok_iff : ofJson noun make body j = .ok b ↔ ∃ ms id a, j = .object ms ∧
    allUnder ms "id" = [.text id] ∧ body (ms.filter (·.1 ≠ "id")) = .ok a ∧ b = make id a := by
  constructor
  · intro h
    cases j with
    | object ms =>
      obtain ⟨e, hmembers, h⟩ := bind_eq_ok.1 h
      obtain ⟨hfills, hothers⟩ := membersOf_eq_ok.1 hmembers
      obtain ⟨id, others⟩ := e
      obtain rfl : others = ms.filter (·.1 ≠ "id") := hothers
      obtain ⟨-, rfl⟩ | ⟨j, id, hone, -, hid, rfl⟩ := hfills
      · cases h
      · obtain ⟨a, ha, h⟩ := bind_eq_ok.1 h
        cases h
        cases j with
        | text s =>
          cases hid
          exact ⟨ms, id, a, rfl, hone, ha, rfl⟩
        | _ => cases hid
    | _ => cases h
  · rintro ⟨ms, id, a, rfl, hone, ha, rfl⟩
    refine bind_eq_ok.2 ⟨⟨some id, ms.filter (·.1 ≠ "id")⟩, membersOf_eq_ok.2 ⟨?_, rfl⟩, ?_⟩
    · exact .inr ⟨_, id, hone, rfl, rfl, rfl⟩
    · exact bind_eq_ok.2 ⟨a, ha, rfl⟩

theorem agrees_readMember (d : Nat) : Json.Agrees d (readMember d) ofMember := by
  intro e e' key cs rest
  by_cases hkey : key = "id"
  · subst hkey
    obtain ⟨_ | id, others⟩ := e
    · constructor
      · intro h
        obtain ⟨r, hcolon, h⟩ := bind_eq_ok.1 h
        obtain ⟨⟨s, r'⟩, htext, h⟩ := bind_eq_ok.1 h
        cases h
        exact ⟨.text s, bind_eq_ok.2 ⟨r, hcolon, Json.readTextOf_eq_ok.1 htext⟩,
          ofMember_id.2 ⟨rfl, s, rfl, rfl⟩⟩
      · rintro ⟨j, h, hmember⟩
        obtain ⟨r, hcolon, hvalue⟩ := bind_eq_ok.1 h
        obtain ⟨-, s, hs, rfl⟩ := ofMember_id.1 hmember
        cases j with
        | text s' =>
          cases hs
          exact bind_eq_ok.2 ⟨r, hcolon, bind_eq_ok.2 ⟨_, Json.readTextOf_eq_ok.2 hvalue, rfl⟩⟩
        | _ => cases hs
    · exact ⟨nofun, fun ⟨_, _, h⟩ => nomatch h⟩
  · rw [readMember, if_neg hkey]
    constructor
    · intro h
      obtain ⟨r, hcolon, h⟩ := bind_eq_ok.1 h
      obtain ⟨⟨j, r'⟩, hvalue, h⟩ := bind_eq_ok.1 h
      cases h
      exact ⟨j, bind_eq_ok.2 ⟨r, hcolon, hvalue⟩, if_neg hkey⟩
    · rintro ⟨j, h, hmember⟩
      obtain ⟨r, hcolon, hvalue⟩ := bind_eq_ok.1 h
      cases (if_neg hkey).symm.trans hmember
      exact bind_eq_ok.2 ⟨r, hcolon, bind_eq_ok.2 ⟨_, hvalue, rfl⟩⟩

/-- To read an envelope strictly is to read a value and take it for what it is. -/
theorem read_eq_ok : read noun make body d cs = .ok (b, rest) ↔
    ∃ j, Json.readValue d cs = .ok (j, rest) ∧ ofJson noun make body j = .ok b := by
  constructor
  · intro h
    unfold read at h
    split at h
    · rename_i r hblank
      obtain ⟨d, rfl, h⟩ := Json.within_eq_ok.1 h
      obtain ⟨r', h, hend⟩ := Json.closeObject_eq_ok.1 h
      obtain ⟨⟨e, r₁⟩, hread, h⟩ := bind_eq_ok.1 h
      obtain ⟨ms, hmembers, htakes⟩ := (Json.readMembers_eq_ok (agrees_readMember d)).1 hread
      dsimp only at h
      split at h
      · rename_i b' hcomplete
        cases h
        exact ⟨.object ms, Json.readValue_eq_object.2 ⟨d, r, _, rfl, hblank, hmembers, hend⟩,
          bind_eq_ok.2 ⟨e, htakes, hcomplete⟩⟩
      · cases h
    · exact absurd h Json.wrongType_ne_ok
  · rintro ⟨j, hvalue, h⟩
    obtain ⟨ms, -, -, rfl, -⟩ := ofJson_eq_ok_iff.1 h
    obtain ⟨d, r, r', rfl, hblank, hmembers, hend⟩ := Json.readValue_eq_object.1 hvalue
    obtain ⟨e, htakes, hcomplete⟩ := bind_eq_ok.1 h
    have hread := (Json.readMembers_eq_ok (agrees_readMember d)).2 ⟨ms, hmembers, htakes⟩
    unfold read
    rw [hblank]
    refine Json.within_eq_ok.2 ⟨d, rfl, Json.closeObject_eq_ok.2 ⟨r', ?_, hend⟩⟩
    refine bind_eq_ok.2 ⟨_, hread, ?_⟩
    simp only [hcomplete]
    rfl

end Envelope

/-! ### The grammar -/

/-- How a method is named: by a text, or by an object with nothing under the name. -/
inductive Method.Named (under : List (String × Json) → String → List Json) : Json → Method → Prop
    where
  | text (m : Method) : Named under (.text m.name) m
  | object {ms : List (String × Json)} {m : Method} {v : Json} (hkeys : ∀ e ∈ ms, e.1 = m.name)
    (hvalue : under ms m.name = [v]) (hnothing : v = .null ∨ v = .object []) :
    Named under (.object ms) m

inductive PingParams.Message : Json → Option String → Prop where
  | null : Message .null none
  | text (s : String) : Message (.text s) (some s)

/-- How the parameters of a call are written: as members, or as the list of all of them. -/
inductive Call.Written (under : List (String × Json) → String → List Json) : Json → Call → Prop
    where
  | silent {ms : List (String × Json)} (h : under ms "message" = []) :
    Written under (.object ms) (.ping ⟨none⟩)
  | ping {ms : List (String × Json)} {j : Json} {message : Option String}
    (h : under ms "message" = [j]) (hmessage : PingParams.Message j message) :
    Written under (.object ms) (.ping ⟨message⟩)
  | pingItems {j : Json} {message : Option String} (h : PingParams.Message j message) :
    Written under (.list [j]) (.ping ⟨message⟩)
  | init {ms : List (String × Json)} {project library : String}
    (hproject : under ms "project" = [.text project])
    (hlibrary : under ms "fableLibrary" = [.text library]) :
    Written under (.object ms) (.init ⟨project, library⟩)
  | initItems (project library : String) :
    Written under (.list [.text project, .text library]) (.init ⟨project, library⟩)
  | compile {ms : List (String × Json)} {file : String} (h : under ms "fileName" = [.text file]) :
    Written under (.object ms) (.compile ⟨file⟩)
  | compileItems (file : String) : Written under (.list [.text file]) (.compile ⟨file⟩)

/-- The members of an object say what a request says; `absent` stands in for parameters that are
left out. -/
structure Request.Stated (under : List (String × Json) → String → List Json) (absent : Option Json)
    (ms : List (String × Json)) (r : Request) : Prop where
  id : under ms "id" = [.text r.id]
  method : ∃ j, under ms "method" = [j] ∧ Method.Named under j r.call.method
  params : ∃ j, (under ms "params" = [j] ∨ under ms "params" = [] ∧ absent = some j) ∧
    Call.Written under j r.call

/-! ### Where every value counts -/

namespace Method

variable {ms : List (String × Json)} {m : Method} {j v : Json} {name : String}

theorem lookup_cases_iff : cases.lookup name = some m ↔ name = m.name := by
  refine ⟨fun h => ?_, fun h => h ▸ lookup_cases m⟩
  have hcases : cases = [("ping", .ping), ("init", .init), ("compile", .compile)] := rfl
  rw [hcases, Table.lookup_cons, Table.lookup_cons, Table.lookup_cons] at h
  split at h
  · cases h
    assumption
  · split at h
    · cases h
      assumption
    · split at h
      · cases h
        assumption
      · cases h

theorem caseOf_eq_ok : Json.caseOf cases name = .ok m ↔ name = m.name := by
  rw [← lookup_cases_iff, Json.caseOf]
  cases cases.lookup name <;> simp

theorem unitOf_eq_ok : Json.unitOf v = .ok () ↔ v = .null ∨ v = .object [] := by
  unfold Json.unitOf
  split <;> simp_all [Json.wrongTypeOf]

/-- Where every value counts, an object that names a method has one member. -/
theorem named_object : Named allUnder (.object ms) m ↔
    ∃ v, ms = [(m.name, v)] ∧ (v = .null ∨ v = .object []) := by
  constructor
  · intro h
    cases h with
    | @object _ _ v hkeys hvalue hnothing =>
      refine ⟨v, ?_, hnothing⟩
      have hall : ms.filter (·.1 = m.name) = ms :=
        List.filter_eq_self.2 fun e he => decide_eq_true (hkeys e he)
      rw [allUnder, hall] at hvalue
      obtain ⟨⟨key, v'⟩, rfl, rfl⟩ := List.map_eq_singleton_iff.1 hvalue
      rw [← hkeys _ List.mem_cons_self]
  · rintro ⟨v, rfl, hnothing⟩
    refine .object (List.forall_mem_singleton.2 rfl) ?_ hnothing
    simp [allUnder]

theorem choiceOf_eq_ok : Json.choiceOf cases j = .ok m ↔ Named allUnder j m := by
  constructor
  · intro h
    obtain ⟨⟨name, content⟩, hvariant, hcontent⟩ := bind_eq_ok.1 h
    obtain ⟨m', hcase, hunit⟩ := bind_eq_ok.1 hcontent
    obtain rfl := caseOf_eq_ok.1 hcase
    unfold Json.variantOf at hvariant
    split at hvariant
    · cases hvariant
      cases hunit
      exact .text m
    · rename_i v
      cases hvariant
      obtain ⟨⟨⟩, hnothing, hm⟩ := bind_eq_ok.1 hunit
      cases hm
      exact named_object.2 ⟨v, rfl, unitOf_eq_ok.1 hnothing⟩
    · cases hvariant
    · cases hvariant
  · intro h
    cases j with
    | text s =>
      cases h
      exact bind_eq_ok.2 ⟨_, rfl, bind_eq_ok.2 ⟨m, caseOf_eq_ok.2 rfl, rfl⟩⟩
    | object ms =>
      obtain ⟨v, rfl, hnothing⟩ := named_object.1 h
      exact bind_eq_ok.2 ⟨_, rfl, bind_eq_ok.2 ⟨m, caseOf_eq_ok.2 rfl,
        bind_eq_ok.2 ⟨(), unitOf_eq_ok.2 hnothing, rfl⟩⟩⟩
    | _ => cases h

end Method

namespace Call

variable {ms : List (String × Json)} {m : Method} {c : Call} {j : Json} {message : Option String}
  {s : String}

theorem messageOf_eq_ok : (Json.Shape.optional .text).ofJson j = .ok message ↔
    PingParams.Message j message := by
  constructor
  · intro h
    cases j with
    | null =>
      cases h
      exact .null
    | text s =>
      cases h
      exact .text s
    | _ => cases h
  · intro h
    cases h <;> rfl

theorem pingOf_object {p : PingParams} : PingParams.shape.ofJson (.object ms) = .ok p ↔
    Written allUnder (.object ms) (.ping p) := by
  rw [PingParams.shape, Json.recordOf_object]
  constructor
  · rintro ⟨⟨message, ⟨⟩⟩, h, rfl⟩
    obtain ⟨⟨hnone, hfallback⟩ | ⟨j, hone, hj⟩, -⟩ := Json.ofMembers_field.1 h
    · cases hfallback
      exact .silent hnone
    · exact .ping hone (messageOf_eq_ok.1 hj)
  · intro h
    cases h with
    | silent hnone =>
      exact ⟨(none, ()), Json.ofMembers_field.2 ⟨.inl ⟨hnone, rfl⟩, Json.ofMembers_none _⟩, rfl⟩
    | ping hone hj =>
      exact ⟨(_, ()), Json.ofMembers_field.2 ⟨.inr ⟨_, hone, messageOf_eq_ok.2 hj⟩,
        Json.ofMembers_none _⟩, rfl⟩

theorem ofMembers_text {β : Type} {others : Fields β} {name : String} {b : β} :
    (Fields.field name .text .required others).ofMembers ms = .ok (s, b) ↔
      allUnder ms name = [.text s] ∧ others.ofMembers (ms.filter (·.1 ≠ name)) = .ok b := by
  rw [Json.ofMembers_field]
  refine and_congr_left fun _ => ?_
  constructor
  · rintro (⟨-, h⟩ | ⟨j, hone, hj⟩)
    · cases h
    · rw [← Json.textOf_eq_ok.1 hj]
      exact hone
  · exact fun hone => .inr ⟨_, hone, rfl⟩

theorem initOf_object {p : InitParams} : InitParams.shape.ofJson (.object ms) = .ok p ↔
    Written allUnder (.object ms) (.init p) := by
  have hunder : allUnder (ms.filter (·.1 ≠ "project")) "fableLibrary" =
      allUnder ms "fableLibrary" := Json.allUnder_filter_ne (by decide)
  rw [InitParams.shape, Json.recordOf_object]
  constructor
  · rintro ⟨⟨project, library, ⟨⟩⟩, h, rfl⟩
    obtain ⟨hproject, h⟩ := ofMembers_text.1 h
    obtain ⟨hlibrary, -⟩ := ofMembers_text.1 h
    exact .init hproject (hunder ▸ hlibrary)
  · intro h
    cases h with
    | init hproject hlibrary =>
      exact ⟨(_, _, ()), ofMembers_text.2 ⟨hproject, ofMembers_text.2
        ⟨hunder.trans hlibrary, Json.ofMembers_none _⟩⟩, rfl⟩

theorem compileOf_object {p : CompileParams} : CompileParams.shape.ofJson (.object ms) = .ok p ↔
    Written allUnder (.object ms) (.compile p) := by
  rw [CompileParams.shape, Json.recordOf_object]
  constructor
  · rintro ⟨⟨file, ⟨⟩⟩, h, rfl⟩
    exact .compile (ofMembers_text.1 h).1
  · intro h
    cases h with
    | compile hfile => exact ⟨(_, ()), ofMembers_text.2 ⟨hfile, Json.ofMembers_none _⟩, rfl⟩

theorem pingOf_list {p : PingParams} {js : List Json} :
    PingParams.shape.ofJson (.list js) = .ok p ↔ Written allUnder (.list js) (.ping p) := by
  rw [PingParams.shape, Json.recordOf_list]
  constructor
  · rintro ⟨⟨message, ⟨⟩⟩, h, rfl⟩
    obtain ⟨j, _, rfl, hj, h⟩ := (Json.ofItems_field rfl).1 h
    obtain rfl := Json.ofItems_none.1 h
    exact .pingItems (messageOf_eq_ok.1 hj)
  · intro h
    cases h with
    | pingItems hj =>
      exact ⟨(_, ()), (Json.ofItems_field rfl).2 ⟨_, [], rfl, messageOf_eq_ok.2 hj,
        Json.ofItems_none.2 rfl⟩, rfl⟩

theorem initOf_list {p : InitParams} {js : List Json} :
    InitParams.shape.ofJson (.list js) = .ok p ↔ Written allUnder (.list js) (.init p) := by
  rw [InitParams.shape, Json.recordOf_list]
  constructor
  · rintro ⟨⟨project, library, ⟨⟩⟩, h, rfl⟩
    obtain ⟨j, _, rfl, hj, h⟩ := (Json.ofItems_field rfl).1 h
    obtain ⟨j', _, rfl, hj', h⟩ := (Json.ofItems_field rfl).1 h
    obtain rfl := Json.ofItems_none.1 h
    rw [Json.textOf_eq_ok.1 hj, Json.textOf_eq_ok.1 hj']
    exact .initItems project library
  · intro h
    cases h with
    | initItems project library => exact ⟨(project, library, ()), rfl, rfl⟩

theorem compileOf_list {p : CompileParams} {js : List Json} :
    CompileParams.shape.ofJson (.list js) = .ok p ↔ Written allUnder (.list js) (.compile p) := by
  rw [CompileParams.shape, Json.recordOf_list]
  constructor
  · rintro ⟨⟨file, ⟨⟩⟩, h, rfl⟩
    obtain ⟨j, _, rfl, hj, h⟩ := (Json.ofItems_field rfl).1 h
    obtain rfl := Json.ofItems_none.1 h
    rw [Json.textOf_eq_ok.1 hj]
    exact .compileItems file
  · intro h
    cases h with
    | compileItems file => exact ⟨(file, ()), rfl, rfl⟩

/-- What is no list and no object are no parameters. -/
theorem not_record {α β : Type} {name : String} {fields : Fields β} {make : β → α} {parts : α → β}
    {v : α} {k : Call} (hlist : ∀ js, j ≠ .list js) (hobject : ∀ ms, j ≠ .object ms) :
    (Json.Shape.record name fields make parts).ofJson j = .ok v ↔ Written allUnder j k := by
  constructor
  · intro h
    cases j with
    | list js => exact absurd rfl (hlist js)
    | object ms => exact absurd rfl (hobject ms)
    | _ => cases h
  · intro h
    cases h with
    | pingItems | initItems | compileItems => exact absurd rfl (hlist _)
    | silent | ping | init | compile => exact absurd rfl (hobject _)

theorem paramsOf_eq_ok : paramsOf m j = .ok c ↔ c.method = m ∧ Written allUnder j c := by
  have hping : ∀ p, PingParams.shape.ofJson j = .ok p ↔ Written allUnder j (.ping p) := by
    intro p
    cases j with
    | object ms => exact pingOf_object
    | list js => exact pingOf_list
    | _ => exact not_record nofun nofun
  have hinit : ∀ p, InitParams.shape.ofJson j = .ok p ↔ Written allUnder j (.init p) := by
    intro p
    cases j with
    | object ms => exact initOf_object
    | list js => exact initOf_list
    | _ => exact not_record nofun nofun
  have hcompile : ∀ p, CompileParams.shape.ofJson j = .ok p ↔ Written allUnder j (.compile p) := by
    intro p
    cases j with
    | object ms => exact compileOf_object
    | list js => exact compileOf_list
    | _ => exact not_record nofun nofun
  constructor
  · intro h
    cases m with
    | ping =>
      obtain ⟨p, hp, h⟩ := bind_eq_ok.1 h
      cases h
      exact ⟨rfl, (hping p).1 hp⟩
    | init =>
      obtain ⟨p, hp, h⟩ := bind_eq_ok.1 h
      cases h
      exact ⟨rfl, (hinit p).1 hp⟩
    | compile =>
      obtain ⟨p, hp, h⟩ := bind_eq_ok.1 h
      cases h
      exact ⟨rfl, (hcompile p).1 hp⟩
  · rintro ⟨rfl, h⟩
    cases c with
    | ping p => exact bind_eq_ok.2 ⟨p, (hping p).2 h, rfl⟩
    | init p => exact bind_eq_ok.2 ⟨p, (hinit p).2 h, rfl⟩
    | compile p => exact bind_eq_ok.2 ⟨p, (hcompile p).2 h, rfl⟩

end Call

theorem Call.ofMembers_eq_ok {ms : List (String × Json)} {c : Call} : ofMembers ms = .ok c ↔
    ∃ j p, allUnder ms "method" = [j] ∧ Method.Named allUnder j c.method ∧
      allUnder ms "params" = [p] ∧ Written allUnder p c := by
  have hkeys : adjacency.contentKey ≠ adjacency.tagKey := by decide
  rw [ofMembers, adjacency.ofMembers_eq_ok hkeys]
  constructor
  · rintro ⟨j, m, p, hj, hchoice, hp, hparams⟩
    obtain ⟨rfl, hwritten⟩ := paramsOf_eq_ok.1 hparams
    exact ⟨j, p, hj, Method.choiceOf_eq_ok.1 hchoice, hp, hwritten⟩
  · rintro ⟨j, p, hj, hnamed, hp, hwritten⟩
    exact ⟨j, c.method, p, hj, Method.choiceOf_eq_ok.2 hnamed, hp, paramsOf_eq_ok.2 ⟨rfl, hwritten⟩⟩

namespace Request

/-- What an object is taken for where every value counts. -/
def ofJson (j : Json) : Except Cause Request :=
  Envelope.ofJson "struct Request" mk Call.ofMembers j

theorem ofJson_eq_ok {j : Json} {r : Request} :
    ofJson j = .ok r ↔ ∃ ms, j = .object ms ∧ Stated allUnder none ms r := by
  have hunder : ∀ {ms : List (String × Json)} {key}, "id" ≠ key →
      allUnder (ms.filter (·.1 ≠ "id")) key = allUnder ms key := Json.allUnder_filter_ne
  rw [ofJson, Envelope.ofJson_eq_ok_iff]
  constructor
  · rintro ⟨ms, id, c, rfl, hid, hcall, rfl⟩
    obtain ⟨j, p, hj, hnamed, hp, hwritten⟩ := Call.ofMembers_eq_ok.1 hcall
    rw [hunder (by decide)] at hj hp
    exact ⟨ms, rfl, hid, ⟨j, hj, hnamed⟩, ⟨p, .inl hp, hwritten⟩⟩
  · rintro ⟨ms, rfl, hid, ⟨j, hj, hnamed⟩, ⟨p, hp | ⟨-, hp⟩, hwritten⟩⟩
    · refine ⟨ms, r.id, r.call, rfl, hid,
        Call.ofMembers_eq_ok.2 ⟨j, p, ?_, hnamed, ?_, hwritten⟩, rfl⟩
      · exact (hunder (by decide)).trans hj
      · exact (hunder (by decide)).trans hp
    · cases hp

theorem read_eq_ok {text : String} {r : Request} :
    read text = .ok r ↔ ∃ j, Json.parse text = .ok j ∧ ofJson j = .ok r := by
  rw [read, Json.finish_eq_ok]
  constructor
  · rintro ⟨rest, h, hblank⟩
    obtain ⟨j, hvalue, hj⟩ := Envelope.read_eq_ok.1 h
    exact ⟨j, Json.finish_eq_ok.2 ⟨rest, hvalue, hblank⟩, hj⟩
  · rintro ⟨j, h, hj⟩
    obtain ⟨rest, hvalue, hblank⟩ := Json.finish_eq_ok.1 h
    exact ⟨rest, Envelope.read_eq_ok.2 ⟨j, hvalue, hj⟩, hblank⟩

theorem parse_eq_ok {line : String} {r : Request} :
    parse line = .ok r ↔ ∃ j, Json.parse line = .ok j ∧ ofJson (withParams j.collapse) = .ok r := by
  rw [parse, bind_eq_ok]
  refine exists_congr fun j => and_congr_right fun _ => ?_
  rw [ofJson]
  cases Envelope.ofJson "struct Request" mk Call.ofMembers (withParams j.collapse) with
  | ok r' => exact ⟨fun h => congrArg _ (Except.ok.inj h), fun h => congrArg _ (Except.ok.inj h)⟩
  | error cause => exact ⟨nofun, nofun⟩

end Request

end WarmCompile
