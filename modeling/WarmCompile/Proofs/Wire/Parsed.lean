import WarmCompile.Proofs.Wire.Grammar

/-!
Which lines are requests: those that state one by the last members under their keys. They are at
least the texts that are read strictly, and the same ones where no key is repeated and parameters
are there.
-/

namespace WarmCompile

open Json (Distinct allUnder lastUnder)

namespace Method.Named

variable {j : Json} {m : Method}

theorem collapse_iff : Named allUnder j.collapse m ↔ Named lastUnder j m := by
  cases j with
  | object ms =>
    constructor
    · intro h
      obtain ⟨v, hmembers, hnothing⟩ := named_object.1 h
      obtain ⟨hkeys, hvalue⟩ := Json.collapse_eq_singleton.1 (congrArg Json.object hmembers)
      obtain ⟨v', hlast, rfl⟩ := List.map_eq_singleton_iff.1 hvalue
      exact .object hkeys hlast (hnothing.imp Json.collapse_eq_null.1 Json.collapse_eq_empty.1)
    · intro h
      cases h with
      | @object _ _ v hkeys hlast hnothing =>
        have hmembers := Json.collapse_eq_singleton.2 ⟨hkeys, by rw [hlast]; rfl⟩
        rw [hmembers]
        exact named_object.2 ⟨v.collapse, rfl,
          hnothing.imp Json.collapse_eq_null.2 Json.collapse_eq_empty.2⟩
  | text s =>
    constructor <;> intro h <;> cases h <;> exact .text m
  | null | bool | number | list => constructor <;> intro h <;> cases h

theorem last (h : Named allUnder j m) : Named lastUnder j m := by
  cases h with
  | text => exact .text m
  | object hkeys hvalue hnothing =>
    exact .object hkeys (Json.lastUnder_of_singleton hvalue) hnothing

theorem all (h : Named lastUnder j m) (hdistinct : Distinct j) : Named allUnder j m := by
  cases h with
  | text => exact .text m
  | object hkeys hvalue hnothing =>
    exact .object hkeys ((hdistinct.lastUnder _).symm.trans hvalue) hnothing

end Method.Named

theorem PingParams.Message.collapse_iff {j : Json} {message : Option String} :
    Message j.collapse message ↔ Message j message := by
  constructor
  · intro h
    cases j with
    | list | object => cases h
    | _ => exact h
  · intro h
    cases h with
    | null => exact .null
    | text s => exact .text s

namespace Call.Written

variable {j : Json} {c : Call}

theorem collapse_iff : Written allUnder j.collapse c ↔ Written lastUnder j c := by
  cases j with
  | object ms =>
    have hunder : ∀ {key s}, allUnder (Table.ofList (Json.collapseMembers ms)).entries key =
        [.text s] ↔ lastUnder ms key = [.text s] := by
      intro key s
      rw [Json.allUnder_collapse, Json.map_collapse_eq_text]
    constructor
    · intro h
      cases h with
      | silent h =>
        rw [Json.allUnder_collapse] at h
        exact .silent (List.map_eq_nil_iff.1 h)
      | ping h hmessage =>
        rw [Json.allUnder_collapse] at h
        obtain ⟨j, hlast, rfl⟩ := List.map_eq_singleton_iff.1 h
        exact .ping hlast (PingParams.Message.collapse_iff.1 hmessage)
      | init hproject hlibrary => exact .init (hunder.1 hproject) (hunder.1 hlibrary)
      | compile hfile => exact .compile (hunder.1 hfile)
    · intro h
      cases h with
      | silent h => exact .silent (by rw [Json.allUnder_collapse, h]; rfl)
      | ping h hmessage =>
        exact .ping (by rw [Json.allUnder_collapse, h]; rfl)
          (PingParams.Message.collapse_iff.2 hmessage)
      | init hproject hlibrary => exact .init (hunder.2 hproject) (hunder.2 hlibrary)
      | compile hfile => exact .compile (hunder.2 hfile)
  | list items =>
    rw [Json.collapse, Json.collapseItems_eq]
    constructor
    · intro h
      generalize hitems : items.map Json.collapse = items' at h
      cases h with
      | pingItems hmessage =>
        obtain ⟨j, rfl, rfl⟩ := List.map_eq_singleton_iff.1 hitems
        exact .pingItems (PingParams.Message.collapse_iff.1 hmessage)
      | initItems project library =>
        obtain ⟨j, _, rfl, hj, hitems⟩ := List.map_eq_cons_iff.1 hitems
        obtain ⟨j', rfl, hj'⟩ := List.map_eq_singleton_iff.1 hitems
        rw [Json.collapse_eq_text.1 hj, Json.collapse_eq_text.1 hj']
        exact .initItems project library
      | compileItems file =>
        obtain ⟨j, rfl, hj⟩ := List.map_eq_singleton_iff.1 hitems
        rw [Json.collapse_eq_text.1 hj]
        exact .compileItems file
    · intro h
      cases h with
      | pingItems hmessage => exact .pingItems (PingParams.Message.collapse_iff.2 hmessage)
      | initItems project library => exact .initItems project library
      | compileItems file => exact .compileItems file
  | null | bool | number | text => constructor <;> intro h <;> cases h

theorem last (h : Written allUnder j c) : Written lastUnder j c := by
  cases h with
  | silent h => exact .silent (Json.lastUnder_of_nil h)
  | ping h hmessage => exact .ping (Json.lastUnder_of_singleton h) hmessage
  | pingItems hmessage => exact .pingItems hmessage
  | init hproject hlibrary =>
    exact .init (Json.lastUnder_of_singleton hproject) (Json.lastUnder_of_singleton hlibrary)
  | initItems => exact .initItems ..
  | compile hfile => exact .compile (Json.lastUnder_of_singleton hfile)
  | compileItems => exact .compileItems _

theorem all (h : Written lastUnder j c) (hdistinct : Distinct j) : Written allUnder j c := by
  cases h with
  | silent h => exact .silent ((hdistinct.lastUnder _).symm.trans h)
  | ping h hmessage => exact .ping ((hdistinct.lastUnder _).symm.trans h) hmessage
  | pingItems hmessage => exact .pingItems hmessage
  | init hproject hlibrary =>
    exact .init ((hdistinct.lastUnder _).symm.trans hproject)
      ((hdistinct.lastUnder _).symm.trans hlibrary)
  | initItems => exact .initItems ..
  | compile hfile => exact .compile ((hdistinct.lastUnder _).symm.trans hfile)
  | compileItems => exact .compileItems _

end Call.Written

namespace Request

variable {ms : List (String × Json)} {r : Request}

/-- What stands under each key once only last members are left and parameters are put in. -/
theorem withParams_collapse (ms : List (String × Json)) :
    ∃ ms', withParams (Json.object ms).collapse = .object ms' ∧
      (∀ key ≠ "params", allUnder ms' key = (lastUnder ms key).map Json.collapse) ∧
      (lastUnder ms "params" ≠ [] ∧
          allUnder ms' "params" = (lastUnder ms "params").map Json.collapse ∨
        lastUnder ms "params" = [] ∧ allUnder ms' "params" = [.object []]) := by
  have hunder := Json.allUnder_collapse ms
  generalize ht : Table.ofList (Json.collapseMembers ms) = t at hunder
  have hcollapse : (Json.object ms).collapse = .object t.entries := by rw [← ht, Json.collapse]
  rw [hcollapse, withParams]
  by_cases hany : t.entries.any (·.1 == "params") = true
  · rw [if_pos hany]
    refine ⟨t.entries, rfl, fun key _ => hunder key, .inl ⟨fun hlast => ?_, hunder _⟩⟩
    obtain ⟨e, he, hkey⟩ := List.any_eq_true.1 hany
    have hnone : allUnder t.entries "params" = [] := by rw [hunder, hlast, List.map_nil]
    exact Json.allUnder_eq_nil.1 hnone (List.mem_map.2 ⟨e, he, beq_iff_eq.1 hkey⟩)
  · rw [if_neg hany]
    have hinsert : ∀ key, allUnder (t.insert "params" (.object [])).entries key =
        if key = "params" then [.object []] else allUnder t.entries key := by
      intro key
      rw [Json.allUnder_entries, Json.allUnder_entries, Table.find?_insert]
      split <;> rfl
    refine ⟨(t.insert "params" (.object [])).entries, rfl, fun key hkey => ?_, .inr ⟨?_, ?_⟩⟩
    · rw [hinsert, if_neg hkey, hunder]
    · rw [← List.map_eq_nil_iff, ← hunder, Json.allUnder_eq_nil]
      intro hmem
      obtain ⟨e, he, hkey⟩ := List.mem_map.1 hmem
      exact hany (List.any_eq_true.2 ⟨e, he, beq_iff_eq.2 hkey⟩)
    · rw [hinsert, if_pos rfl]

theorem Stated.last (h : Stated allUnder none ms r) :
    Stated lastUnder (some (.object [])) ms r := by
  obtain ⟨hid, ⟨j, hj, hnamed⟩, ⟨p, hp | ⟨-, hp⟩, hwritten⟩⟩ := h
  · exact ⟨Json.lastUnder_of_singleton hid, ⟨j, Json.lastUnder_of_singleton hj, hnamed.last⟩,
      ⟨p, .inl (Json.lastUnder_of_singleton hp), hwritten.last⟩⟩
  · cases hp

theorem Stated.all (h : Stated lastUnder (some (.object [])) ms r)
    (hparams : "params" ∈ ms.map (·.1)) (hdistinct : Distinct (.object ms)) :
    Stated allUnder none ms r := by
  obtain ⟨hid, ⟨j, hj, hnamed⟩, ⟨p, hp | ⟨hp, -⟩, hwritten⟩⟩ := h
  · rw [hdistinct.lastUnder] at hid hj hp
    have hdistinctj : Distinct j := hdistinct.of_allUnder (hj ▸ List.mem_singleton_self j)
    have hdistinctp : Distinct p := hdistinct.of_allUnder (hp ▸ List.mem_singleton_self p)
    exact ⟨hid, ⟨j, hj, hnamed.all hdistinctj⟩, ⟨p, .inl hp, hwritten.all hdistinctp⟩⟩
  · exact absurd hparams (Json.lastUnder_eq_nil.1 hp)

theorem ofJson_withParams_eq_ok {j : Json} : ofJson (withParams j.collapse) = .ok r ↔
    ∃ ms, j = .object ms ∧ Stated lastUnder (some (.object [])) ms r := by
  cases j with
  | object ms =>
    obtain ⟨ms', hms, hunder, hparams⟩ := withParams_collapse ms
    have hempty : Distinct (.object []) := .object List.nodup_nil (List.forall_mem_nil _)
    rw [hms, ofJson_eq_ok]
    constructor
    · rintro ⟨_, ⟨⟩, hid, ⟨j, hj, hnamed⟩, ⟨p, hp | ⟨-, hp⟩, hwritten⟩⟩
      · rw [hunder _ (by decide)] at hid hj
        obtain ⟨j, hlast, rfl⟩ := List.map_eq_singleton_iff.1 hj
        refine ⟨ms, rfl, Json.map_collapse_eq_text.1 hid,
          ⟨j, hlast, Method.Named.collapse_iff.1 hnamed⟩, ?_⟩
        obtain ⟨-, hparams⟩ | ⟨hnone, hparams⟩ := hparams
        · rw [hparams] at hp
          obtain ⟨p, hlast, rfl⟩ := List.map_eq_singleton_iff.1 hp
          exact ⟨p, .inl hlast, Call.Written.collapse_iff.1 hwritten⟩
        · cases hparams.symm.trans hp
          exact ⟨_, .inr ⟨hnone, rfl⟩, hwritten.last⟩
      · cases hp
    · rintro ⟨_, ⟨⟩, hid, ⟨j, hj, hnamed⟩, ⟨p, hp, hwritten⟩⟩
      refine ⟨ms', rfl, ?_, ⟨j.collapse, ?_, Method.Named.collapse_iff.2 hnamed⟩, ?_⟩
      · rw [hunder _ (by decide), hid]
        rfl
      · rw [hunder _ (by decide), hj]
        rfl
      · obtain ⟨hsome, hparams⟩ | ⟨hnone, hparams⟩ := hparams
        · obtain hp | ⟨hp, -⟩ := hp
          · exact ⟨p.collapse, .inl (by rw [hparams, hp]; rfl),
              Call.Written.collapse_iff.2 hwritten⟩
          · exact absurd hp hsome
        · obtain hp | ⟨-, hp⟩ := hp
          · cases hnone.symm.trans hp
          · cases hp
            exact ⟨_, .inl hparams, hwritten.all hempty⟩
  | _ => exact ⟨nofun, fun ⟨_, h, _⟩ => nomatch h⟩

/-- A line is taken for a request if and only if it is an object whose last members under each key
state that request, parameters that are left out being empty. Whatever is read strictly is taken
for the same request, and where no key is repeated and parameters are there, the two accept the same
texts. -/
theorem accepts_stated (text : String) :
    (∀ r, parse text = .ok r ↔ ∃ ms, Json.parse text = .ok (.object ms) ∧
      Stated lastUnder (some (.object [])) ms r) ∧
    (∀ r, read text = .ok r → parse text = .ok r) ∧
    ∀ ms, Json.parse text = .ok (.object ms) → "params" ∈ ms.map (·.1) → Distinct (.object ms) →
      ((∃ r, read text = .ok r) ↔ ∃ r, parse text = .ok r) := by
  have hparse : ∀ r, parse text = .ok r ↔ ∃ ms, Json.parse text = .ok (.object ms) ∧
      Stated lastUnder (some (.object [])) ms r := by
    intro r
    rw [parse_eq_ok]
    constructor
    · rintro ⟨j, hj, h⟩
      obtain ⟨ms, rfl, hstated⟩ := ofJson_withParams_eq_ok.1 h
      exact ⟨ms, hj, hstated⟩
    · rintro ⟨ms, hj, hstated⟩
      exact ⟨_, hj, ofJson_withParams_eq_ok.2 ⟨ms, rfl, hstated⟩⟩
  have hextends : ∀ r, read text = .ok r → parse text = .ok r := by
    intro r h
    obtain ⟨j, hj, h⟩ := read_eq_ok.1 h
    obtain ⟨ms, rfl, hstated⟩ := ofJson_eq_ok.1 h
    exact (hparse r).2 ⟨ms, hj, hstated.last⟩
  refine ⟨hparse, hextends, fun ms hms hparams hdistinct => ⟨?_, ?_⟩⟩
  · rintro ⟨r, h⟩
    exact ⟨r, hextends r h⟩
  · rintro ⟨r, h⟩
    obtain ⟨_, hj, hstated⟩ := (hparse r).1 h
    cases hms.symm.trans hj
    exact ⟨r, read_eq_ok.2 ⟨_, hj, ofJson_eq_ok.2 ⟨ms, rfl, hstated.all hparams hdistinct⟩⟩⟩

/-- Parameters ahead of a method that is named by an object, and a member nobody asks for. -/
def roundabout : List (String × Json) :=
  [("params", .object [("fileName", .text "A.fs"), ("note", .list [.null])]),
    ("method", .object [("compile", .null)]), ("id", .text "7")]

theorem accepts_stated_roundabout :
    Json.parse (Json.object roundabout).compact = .ok (.object roundabout) ∧
      "params" ∈ roundabout.map (·.1) ∧ Distinct (.object roundabout) ∧
      parse (Json.object roundabout).compact = .ok ⟨"7", .compile ⟨"A.fs"⟩⟩ ∧
      ∃ r, read (Json.object roundabout).compact = .ok r := by
  have hread : Json.parse (Json.object roundabout).compact = .ok (.object roundabout) := by cbv
  have hparams : "params" ∈ roundabout.map (·.1) := by decide
  have hinner : Distinct (.object [("fileName", .text "A.fs"), ("note", .list [.null])]) := by
    refine .object (by decide) (List.forall_mem_cons.2 ⟨.text _, List.forall_mem_singleton.2 ?_⟩)
    exact .list (List.forall_mem_singleton.2 .null)
  have hmethod : Distinct (.object [("compile", .null)]) :=
    .object (by decide) (List.forall_mem_singleton.2 .null)
  have hdistinct : Distinct (.object roundabout) :=
    .object (by decide) (List.forall_mem_cons.2 ⟨hinner,
      List.forall_mem_cons.2 ⟨hmethod, List.forall_mem_singleton.2 (.text _)⟩⟩)
  have hparse : parse (Json.object roundabout).compact = .ok ⟨"7", .compile ⟨"A.fs"⟩⟩ := by
    decide +kernel
  exact ⟨hread, hparams, hdistinct, hparse,
    ((accepts_stated _).2.2 _ hread hparams hdistinct).2 ⟨_, hparse⟩⟩

end Request

end WarmCompile
