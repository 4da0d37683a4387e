import WarmCompile.Json.Adjacent
import WarmCompile.Proofs.Except
import WarmCompile.Proofs.Table

/-!
The members of an object, told by the values that stand under each key: what fields, an id or a case
and its content make of them, and what is left of them where only the last one counts.
-/

namespace WarmCompile.Json

/-! ### Values under a key -/

/-- The values under a key, in their order. -/
def allUnder (ms : List (String × Json)) (key : String) : List Json :=
  (ms.filter (·.1 = key)).map (·.2)

/-- The last value under a key, if there is any. -/
def lastUnder (ms : List (String × Json)) (key : String) : List Json :=
  (get? (.object ms) key).toList

section

variable {ms : List (String × Json)} {k key : String} {j : Json}

theorem allUnder_cons (k : String) (j : Json) (ms : List (String × Json)) (key : String) :
    allUnder ((k, j) :: ms) key = if k = key then j :: allUnder ms key else allUnder ms key := by
  by_cases h : k = key <;> simp [allUnder, h]

theorem allUnder_eq_nil : allUnder ms key = [] ↔ key ∉ ms.map (·.1) := by
  simp [allUnder]
  grind

theorem allUnder_filter_ne (h : k ≠ key) :
    allUnder (ms.filter (·.1 ≠ k)) key = allUnder ms key := by
  simp only [allUnder, List.filter_filter]
  refine congrArg (List.map _) (List.filter_congr fun m _ => ?_)
  by_cases hm : m.1 = key <;> simp [hm, Ne.symm h]

theorem allUnder_perm {ms' : List (String × Json)} (h : ms.Perm ms') (key : String) :
    (allUnder ms key).Perm (allUnder ms' key) :=
  (h.filter _).map _

theorem allUnder_append (ms ms' : List (String × Json)) (key : String) :
    allUnder (ms ++ ms') key = allUnder ms key ++ allUnder ms' key := by
  simp [allUnder]

theorem lastUnder_eq (ms : List (String × Json)) (key : String) :
    lastUnder ms key = (allUnder ms key).getLast?.toList := by
  induction ms using List.reverseRecOn with
  | nil => rfl
  | append_singleton ms m ih =>
    rw [lastUnder, get?, List.reverse_concat, Table.lookup_cons]
    by_cases h : m.1 = key
    · simp [allUnder, h]
    · rw [if_neg (Ne.symm h)]
      change lastUnder ms key = _
      rw [ih]
      simp [allUnder, h]

theorem lastUnder_eq_nil : lastUnder ms key = [] ↔ key ∉ ms.map (·.1) := by
  rw [lastUnder_eq, ← allUnder_eq_nil, Option.toList_eq_nil_iff, List.getLast?_eq_none_iff]

/-- Where no value repeats its key, the last one is all there is. -/
theorem lastUnder_eq_allUnder (h : (allUnder ms key).length ≤ 1) :
    lastUnder ms key = allUnder ms key := by
  rw [lastUnder_eq]
  match allUnder ms key, h with
  | [], _ => rfl
  | [j], _ => rfl

theorem lastUnder_of_nil (h : allUnder ms key = []) : lastUnder ms key = [] := by
  rw [lastUnder_eq_allUnder (by simp [h]), h]

theorem lastUnder_of_singleton (h : allUnder ms key = [j]) : lastUnder ms key = [j] := by
  rw [lastUnder_eq_allUnder (by simp [h]), h]

theorem length_allUnder_le (h : (ms.map (·.1)).Nodup) (key : String) :
    (allUnder ms key).length ≤ 1 := by
  induction ms with
  | nil => exact Nat.zero_le 1
  | cons m ms ih =>
    obtain ⟨hm, hms⟩ := List.nodup_cons.1 h
    rw [allUnder_cons]
    split
    · rename_i hkey
      rw [allUnder_eq_nil.2 (hkey ▸ hm)]
      exact Nat.le_refl 1
    · exact ih hms

end

/-! ### The last value under each key -/

theorem collapseMembers_eq (ms : List (String × Json)) :
    collapseMembers ms = ms.map fun m => (m.1, m.2.collapse) := by
  induction ms with
  | nil => rfl
  | cons m ms ih => rw [collapseMembers, ih, List.map_cons]

theorem eq_text_of_collapse {j : Json} {s : String} (h : j.collapse = .text s) :
    j = .text s := by
  cases j with
  | list items => cases h
  | object ms => cases h
  | _ => exact h

section

variable {ms : List (String × Json)} {key : String} {j : Json}

theorem lookup_map {β γ : Type} (f : β → γ) (l : List (String × β)) (key : String) :
    (l.map fun m => (m.1, f m.2)).lookup key = (l.lookup key).map f := by
  induction l with
  | nil => rfl
  | cons m l ih =>
    rw [List.map_cons, Table.lookup_cons, Table.lookup_cons, ih]
    split <;> rfl

theorem allUnder_entries (t : Table Json) (key : String) :
    allUnder t.entries key = (t.find? key).toList := by
  rw [← lastUnder_eq_allUnder (length_allUnder_le t.nodup_keys key), lastUnder, get?,
    Table.lookup_reverse_entries]

/-- Under each key one value is left, and that was the last. -/
theorem allUnder_collapse (ms : List (String × Json)) (key : String) :
    allUnder (Table.ofList (collapseMembers ms)).entries key =
      (lastUnder ms key).map collapse := by
  rw [allUnder_entries, Table.find?_ofList_eq_lookup, collapseMembers_eq, ← List.map_reverse,
    lookup_map, lastUnder, get?]
  cases ms.reverse.lookup key <;> rfl

theorem collapse_eq_null : j.collapse = .null ↔ j = .null := by
  cases j with
  | list items => exact ⟨nofun, nofun⟩
  | object ms => exact ⟨nofun, nofun⟩
  | _ => exact Iff.rfl

theorem collapse_eq_text {s : String} : j.collapse = .text s ↔ j = .text s := by
  refine ⟨eq_text_of_collapse, ?_⟩
  rintro rfl
  rfl

theorem collapseItems_eq (items : List Json) : collapseItems items = items.map collapse := by
  induction items with
  | nil => rfl
  | cons j items ih => rw [collapseItems, ih, List.map_cons]

theorem map_collapse_eq_text {vs : List Json} {s : String} :
    vs.map collapse = [.text s] ↔ vs = [.text s] := by
  rw [List.map_eq_singleton_iff]
  constructor
  · rintro ⟨j, rfl, hj⟩
    rw [collapse_eq_text.1 hj]
  · exact fun h => ⟨_, h, rfl⟩

theorem collapse_eq_empty : j.collapse = .object [] ↔ j = .object [] := by
  refine ⟨fun h => ?_, ?_⟩
  · cases j with
    | object ms =>
      cases ms with
      | nil => rfl
      | cons m ms =>
        have hall := allUnder_collapse (m :: ms) m.1
        rw [Json.object.inj h] at hall
        have hlast : lastUnder (m :: ms) m.1 = [] := List.map_eq_nil_iff.1 hall.symm
        exact absurd List.mem_cons_self (lastUnder_eq_nil.1 hlast)
    | list items => cases h
    | _ => cases h
  · rintro rfl
    rfl

/-- Where one member is left, all had its key. -/
theorem collapse_eq_singleton {v : Json} : (object ms).collapse = .object [(key, v)] ↔
    (∀ m ∈ ms, m.1 = key) ∧ (lastUnder ms key).map collapse = [v] := by
  have hunder : ∀ k, allUnder [(key, v)] k = if key = k then [v] else [] := fun k =>
    allUnder_cons key v [] k
  constructor
  · intro h
    have hall := allUnder_collapse ms
    have hentries : (Table.ofList (collapseMembers ms)).entries = [(key, v)] := Json.object.inj h
    rw [hentries] at hall
    refine ⟨fun m hm => ?_, ?_⟩
    · by_contra hne
      have hlast : lastUnder ms m.1 = [] := by
        rw [← List.map_eq_nil_iff (f := collapse), ← hall, hunder, if_neg (Ne.symm hne)]
      exact lastUnder_eq_nil.1 hlast (List.mem_map_of_mem hm)
    · rw [← hall, hunder, if_pos rfl]
  · rintro ⟨hkeys, hlast⟩
    have hinj : ∀ {o o' : Option Json}, o.toList = o'.toList → o = o' := by
      intro o o' h
      cases o <;> cases o' <;> simp_all
    have htable : Table.ofList (collapseMembers ms) = ⟨[(key, v)], List.pairwise_singleton ..⟩ := by
      refine Table.ext_find? fun k => hinj ?_
      rw [← allUnder_entries, ← allUnder_entries, allUnder_collapse]
      by_cases hk : key = k
      · rw [hunder, if_pos hk, ← hk, hlast]
      · have hnone : lastUnder ms k = [] := by
          refine lastUnder_eq_nil.2 fun hmem => ?_
          obtain ⟨m, hm, rfl⟩ := List.mem_map.1 hmem
          exact hk (hkeys m hm).symm
        rw [hunder, if_neg hk, hnone]
        rfl
    rw [collapse, htable]

end

/-! ### Values without repeated keys -/

inductive Distinct : Json → Prop where
  | null : Distinct .null
  | bool (b : Bool) : Distinct (.bool b)
  | number (n : Number) : Distinct (.number n)
  | text (s : String) : Distinct (.text s)
  | list {items : List Json} (h : ∀ j ∈ items, Distinct j) : Distinct (.list items)
  | object {ms : List (String × Json)} (hkeys : (ms.map (·.1)).Nodup)
    (h : ∀ m ∈ ms, Distinct m.2) : Distinct (.object ms)

theorem Distinct.lastUnder {ms : List (String × Json)} (h : Distinct (.object ms)) (key : String) :
    lastUnder ms key = allUnder ms key := by
  cases h with
  | object hkeys _ => exact lastUnder_eq_allUnder (length_allUnder_le hkeys key)

theorem Distinct.of_allUnder {ms : List (String × Json)} {key : String} {j : Json}
    (h : Distinct (.object ms)) (hj : j ∈ allUnder ms key) : Distinct j := by
  cases h with
  | object _ hms =>
    obtain ⟨m, hm, rfl⟩ := List.mem_map.1 hj
    exact hms m (List.mem_of_mem_filter hm)

/-! ### What members are made of -/

/-- A slot that holds `s` holds `s'` behind the values under its key: it takes no more than one. -/
def Fills {α : Type} (f : Json → Except Cause α) (s : Option α) (vs : List Json) (s' : Option α) :
    Prop :=
  vs = [] ∧ s' = s ∨ ∃ j a, vs = [j] ∧ s = none ∧ f j = .ok a ∧ s' = some a

section

variable {α β : Type} {f : Json → Except Cause α} {s s' : Option α} {j : Json} {vs : List Json}
  {ms : List (String × Json)} {key name : String}

theorem fills_cons : Fills f s (j :: vs) s' ↔
    s = none ∧ ∃ a, f j = .ok a ∧ Fills f (some a) vs s' := by
  constructor
  · rintro (⟨h, -⟩ | ⟨j', a, h, hs, ha, hs'⟩)
    · cases h
    · cases h
      exact ⟨hs, a, ha, .inl ⟨rfl, hs'⟩⟩
  · rintro ⟨hs, a, ha, ⟨rfl, hs'⟩ | ⟨_, _, _, h, -⟩⟩
    · exact .inr ⟨j, a, rfl, hs, ha, hs'⟩
    · cases h

section

variable {shape : Shape α} {presence : Presence α} {others : Fields β}
  {slots slots' : others.Slots}

theorem ofMember_field_eq : (Fields.field name shape presence others).ofMember (s, slots) name j =
      .ok (s', slots') ↔ s = none ∧ ∃ a, shape.ofJson j = .ok a ∧ s' = some a ∧ slots' = slots := by
  simp only [Fields.ofMember]
  cases s with
  | none =>
    constructor
    · intro h
      obtain ⟨a, ha, h⟩ := bind_eq_ok.1 h
      cases h
      exact ⟨rfl, a, ha, rfl, rfl⟩
    · rintro ⟨-, a, ha, rfl, rfl⟩
      exact bind_eq_ok.2 ⟨a, ha, rfl⟩
  | some _ => exact ⟨nofun, nofun⟩

theorem ofMember_field_ne (h : key ≠ name) :
    (Fields.field name shape presence others).ofMember (s, slots) key j = .ok (s', slots') ↔
      s' = s ∧ others.ofMember slots key j = .ok slots' := by
  have hothers : (Fields.field name shape presence others).ofMember (s, slots) key j =
      others.ofMember slots key j >>= fun behind => .ok (s, behind) := if_neg h
  rw [hothers]
  constructor
  · intro h
    obtain ⟨behind, hbehind, h⟩ := bind_eq_ok.1 h
    cases h
    exact ⟨rfl, hbehind⟩
  · rintro ⟨rfl, h⟩
    exact bind_eq_ok.2 ⟨slots', h, rfl⟩

/-- A field takes the values under its name, and the other fields take the other members. -/
theorem membersOf_field :
    membersOf (Fields.field name shape presence others).ofMember (s, slots) ms = .ok (s', slots') ↔
      Fills shape.ofJson s (allUnder ms name) s' ∧
        membersOf others.ofMember slots (ms.filter (·.1 ≠ name)) = .ok slots' := by
  induction ms generalizing s slots with
  | nil =>
    constructor
    · intro h
      cases h
      exact ⟨.inl ⟨rfl, rfl⟩, rfl⟩
    · rintro ⟨⟨-, rfl⟩ | ⟨_, _, h, -⟩, hslots⟩
      · cases hslots
        rfl
      · cases h
  | cons m ms ih =>
    obtain ⟨key, j⟩ := m
    rw [allUnder_cons]
    constructor
    · intro h
      obtain ⟨⟨s₁, slots₁⟩, hfirst, h⟩ := bind_eq_ok.1 h
      obtain ⟨hfills, hothers⟩ := ih.1 h
      by_cases hkey : key = name
      · subst hkey
        obtain ⟨rfl, a, ha, rfl, rfl⟩ := ofMember_field_eq.1 hfirst
        rw [if_pos rfl, List.filter_cons_of_neg (by simp)]
        exact ⟨fills_cons.2 ⟨rfl, a, ha, hfills⟩, hothers⟩
      · obtain ⟨rfl, hslots⟩ := (ofMember_field_ne hkey).1 hfirst
        rw [if_neg hkey, List.filter_cons_of_pos (by simpa using hkey)]
        exact ⟨hfills, bind_eq_ok.2 ⟨slots₁, hslots, hothers⟩⟩
    · rintro ⟨hfills, hothers⟩
      by_cases hkey : key = name
      · subst hkey
        rw [if_pos rfl] at hfills
        rw [List.filter_cons_of_neg (by simp)] at hothers
        obtain ⟨rfl, a, ha, hfills⟩ := fills_cons.1 hfills
        exact bind_eq_ok.2 ⟨(some a, slots), ofMember_field_eq.2 ⟨rfl, a, ha, rfl, rfl⟩,
          ih.2 ⟨hfills, hothers⟩⟩
      · rw [if_neg hkey] at hfills
        rw [List.filter_cons_of_pos (by simpa using hkey)] at hothers
        obtain ⟨slots₁, hslots, hothers⟩ := bind_eq_ok.1 hothers
        exact bind_eq_ok.2 ⟨(s, slots₁), (ofMember_field_ne hkey).2 ⟨rfl, hslots⟩,
          ih.2 ⟨hfills, hothers⟩⟩

theorem completed_eq_ok {γ : Type} {fields : Fields γ} {slots : fields.Slots} {c : γ} :
    completed fields slots = .ok c ↔ fields.complete slots = .ok c := by
  unfold completed
  cases fields.complete slots <;> simp

/-- Fields are made of the values under their names, one for each, or of what stands in for it. -/
theorem ofMembers_field {a : α} {b : β} :
    (Fields.field name shape presence others).ofMembers ms = .ok (a, b) ↔
      (allUnder ms name = [] ∧ presence.fallback? = some a ∨
        ∃ j, allUnder ms name = [j] ∧ shape.ofJson j = .ok a) ∧
      others.ofMembers (ms.filter (·.1 ≠ name)) = .ok b := by
  have hcomplete : ∀ {s : Option α} {slots : others.Slots},
      (Fields.field name shape presence others).complete (s, slots) = .ok (a, b) ↔
        (s <|> presence.fallback?) = some a ∧ others.complete slots = .ok b := by
    intro s slots
    simp only [Fields.complete]
    cases s <|> presence.fallback? with
    | none => simp
    | some a => cases others.complete slots <;> simp
  constructor
  · intro h
    obtain ⟨⟨s, slots⟩, hmembers, h⟩ := bind_eq_ok.1 h
    obtain ⟨hfills, hothers⟩ := membersOf_field.1 hmembers
    obtain ⟨hvalue, hrest⟩ := hcomplete.1 (completed_eq_ok.1 h)
    refine ⟨?_, bind_eq_ok.2 ⟨slots, hothers, completed_eq_ok.2 hrest⟩⟩
    obtain ⟨hnone, rfl⟩ | ⟨j, a', hone, -, ha, rfl⟩ := hfills
    · exact .inl ⟨hnone, hvalue⟩
    · cases hvalue
      exact .inr ⟨j, hone, ha⟩
  · rintro ⟨hvalue, h⟩
    obtain ⟨slots, hothers, hrest⟩ := bind_eq_ok.1 h
    have hfill : ∃ s, Fills shape.ofJson none (allUnder ms name) s ∧
        (s <|> presence.fallback?) = some a := by
      obtain ⟨hnone, hfallback⟩ | ⟨j, hone, ha⟩ := hvalue
      · exact ⟨none, .inl ⟨hnone, rfl⟩, hfallback⟩
      · exact ⟨some a, .inr ⟨j, a, hone, rfl, ha, rfl⟩, rfl⟩
    obtain ⟨s, hfills, hs⟩ := hfill
    exact bind_eq_ok.2 ⟨(s, slots), membersOf_field.2 ⟨hfills, hothers⟩,
      completed_eq_ok.2 (hcomplete.2 ⟨hs, completed_eq_ok.1 hrest⟩)⟩

theorem ofMembers_none (ms : List (String × Json)) : Fields.none.ofMembers ms = .ok () := by
  have hmembers : ∀ ms : List (String × Json),
      membersOf Fields.none.ofMember () ms = .ok () := by
    intro ms
    induction ms with
    | nil => rfl
    | cons m ms ih => exact ih
  rw [Fields.ofMembers]
  exact congrArg (· >>= completed Fields.none) (hmembers ms)

section

variable {noun : String} {i : Nat} {js : List Json} {a : α} {b : β}

/-- Of a list the first item is for the first field. -/
theorem ofItems_cons :
    (Fields.field name shape presence others).ofItems noun i (j :: js) = .ok (a, b) ↔
      shape.ofJson j = .ok a ∧ others.ofItems noun (i + 1) js = .ok b := by
  constructor
  · intro h
    obtain ⟨a', ha, h⟩ := bind_eq_ok.1 h
    obtain ⟨_, ⟨⟩, h⟩ := bind_eq_ok.1 h
    obtain ⟨b', hb, h⟩ := bind_eq_ok.1 h
    cases h
    exact ⟨ha, hb⟩
  · rintro ⟨ha, hb⟩
    exact bind_eq_ok.2 ⟨a, ha, bind_eq_ok.2 ⟨(a, js), rfl, bind_eq_ok.2 ⟨b, hb, rfl⟩⟩⟩

/-- Where the list ends a field is left to what fills it up. -/
theorem ofItems_nil : (Fields.field name shape presence others).ofItems noun i [] = .ok (a, b) ↔
    presence.padding? = some a ∧ others.ofItems noun (i + 1) [] = .ok b := by
  constructor
  · intro h
    unfold Fields.ofItems at h
    cases hpadding : presence.padding? with
    | none =>
      rw [hpadding] at h
      cases h
    | some a' =>
      rw [hpadding] at h
      obtain ⟨_, ⟨⟩, h⟩ := bind_eq_ok.1 h
      obtain ⟨b', hb, h⟩ := bind_eq_ok.1 h
      cases h
      exact ⟨rfl, hb⟩
  · rintro ⟨hpadding, hb⟩
    unfold Fields.ofItems
    rw [hpadding]
    exact bind_eq_ok.2 ⟨(a, []), rfl, bind_eq_ok.2 ⟨b, hb, rfl⟩⟩

theorem ofItems_field (hpadding : presence.padding? = none) :
    (Fields.field name shape presence others).ofItems noun i js = .ok (a, b) ↔
      ∃ j js', js = j :: js' ∧ shape.ofJson j = .ok a ∧
        others.ofItems noun (i + 1) js' = .ok b := by
  cases js with
  | nil =>
    rw [ofItems_nil, hpadding]
    exact ⟨nofun, fun ⟨_, _, h, _⟩ => nomatch h⟩
  | cons j js =>
    rw [ofItems_cons]
    constructor
    · exact fun h => ⟨j, js, rfl, h⟩
    · rintro ⟨_, _, ⟨⟩, h⟩
      exact h

end

theorem ofItems_none {noun : String} {i : Nat} {js : List Json} :
    Fields.none.ofItems noun i js = .ok () ↔ js = [] := by
  cases js <;> simp [Fields.ofItems]

section

variable {γ : Type} {fields : Fields β} {make : β → γ} {parts : γ → β} {v : γ}

/-- A record is made of what its fields are made of. -/
theorem recordOf_object : (Shape.record name fields make parts).ofJson (.object ms) = .ok v ↔
    ∃ b, fields.ofMembers ms = .ok b ∧ make b = v := by
  have hfields : (Shape.record name fields make parts).ofJson (.object ms) =
      fields.ofMembers ms >>= fun b => .ok (make b) := (bind_assoc ..).symm
  rw [hfields, bind_eq_ok]
  simp

theorem recordOf_list {js : List Json} :
    (Shape.record name fields make parts).ofJson (.list js) = .ok v ↔
      ∃ b, fields.ofItems (fields.lengthNoun (recordNoun name)) 0 js = .ok b ∧ make b = v := by
  have hfields : (Shape.record name fields make parts).ofJson (.list js) =
      fields.ofItems (fields.lengthNoun (recordNoun name)) 0 js >>= fun b => .ok (make b) :=
    rfl
  rw [hfields, bind_eq_ok]
  simp

end

end

end

/-! ### A case and its content -/

namespace Adjacency

variable {κ α : Type} {a : Adjacency κ} {content : κ → Json → Except Cause α} {tag : κ}
  {waiting : Option Json} {j : Json} {v v' : α} {ms : List (String × Json)}

/-- What is made of the members that follow. -/
def rest (a : Adjacency κ) (content : κ → Json → Except Cause α) (s : Adjacent κ α)
    (ms : List (String × Json)) : Except Cause α :=
  membersOf (a.ofMember content) s ms >>= a.complete

/-- What is made of members depends on the values under the two keys alone: it is told by what the
first of them leads to. -/
theorem rest_iff {s : Adjacent κ α} {P : List Json → List Json → Prop}
    (hkeys : a.contentKey ≠ a.tagKey) (hnil : a.complete s = .ok v ↔ P [] [])
    (htag : ∀ j ms, (a.ofMember content s a.tagKey j >>= (a.rest content · ms)) = .ok v ↔
      P (j :: allUnder ms a.tagKey) (allUnder ms a.contentKey))
    (hcontent : ∀ j ms, (a.ofMember content s a.contentKey j >>= (a.rest content · ms)) = .ok v ↔
      P (allUnder ms a.tagKey) (j :: allUnder ms a.contentKey)) :
    a.rest content s ms = .ok v ↔ P (allUnder ms a.tagKey) (allUnder ms a.contentKey) := by
  induction ms with
  | nil => exact hnil
  | cons m ms ih =>
    obtain ⟨key, j⟩ := m
    have hcons : a.rest content s ((key, j) :: ms) =
        a.ofMember content s key j >>= (a.rest content · ms) := bind_assoc ..
    rw [hcons, allUnder_cons, allUnder_cons]
    by_cases hkey : key = a.tagKey
    · subst hkey
      rw [if_pos rfl, if_neg (Ne.symm hkeys)]
      exact htag j ms
    · by_cases hkey' : key = a.contentKey
      · subst hkey'
        rw [if_neg hkeys, if_pos rfl]
        exact hcontent j ms
      · rw [if_neg hkey, if_neg hkey', ofMember, if_neg hkey, if_neg hkey']
        exact ih

/-- Behind both nothing may follow under either key. -/
theorem rest_value (hkeys : a.contentKey ≠ a.tagKey) :
    a.rest content ⟨some tag, waiting, some v⟩ ms = .ok v' ↔
      allUnder ms a.tagKey = [] ∧ allUnder ms a.contentKey = [] ∧ v = v' := by
  refine rest_iff (P := fun tags contents => tags = [] ∧ contents = [] ∧ v = v') hkeys ?_
    (fun j ms => ?_) fun j ms => ?_
  · simp [complete]
  · rw [ofMember, if_pos rfl]
    exact ⟨nofun, nofun⟩
  · rw [ofMember, if_neg hkeys, if_pos rfl]
    simp [bind, Except.bind]

/-- Behind the case one value follows as its content. -/
theorem rest_tag (hkeys : a.contentKey ≠ a.tagKey) :
    a.rest content ⟨some tag, none, none⟩ ms = .ok v ↔
      allUnder ms a.tagKey = [] ∧ ∃ p, allUnder ms a.contentKey = [p] ∧ content tag p = .ok v := by
  refine rest_iff (P := fun tags contents => tags = [] ∧ ∃ p, contents = [p] ∧
    content tag p = .ok v) hkeys ?_ (fun j ms => ?_) fun j ms => ?_
  · simp [complete]
  · rw [ofMember, if_pos rfl]
    exact ⟨nofun, nofun⟩
  · rw [ofMember, if_neg hkeys, if_pos rfl]
    constructor
    · intro h
      obtain ⟨s, hs, h⟩ := bind_eq_ok.1 h
      obtain ⟨v₁, hv, hs⟩ := bind_eq_ok.1 hs
      cases hs
      obtain ⟨htags, hcontents, rfl⟩ := (rest_value hkeys).1 h
      exact ⟨htags, j, by rw [hcontents], hv⟩
    · rintro ⟨htags, p, hp, hv⟩
      obtain ⟨rfl, hcontents⟩ := List.cons_eq_cons.1 hp
      exact bind_eq_ok.2 ⟨_, bind_eq_ok.2 ⟨v, hv, rfl⟩,
        (rest_value hkeys).2 ⟨htags, hcontents, rfl⟩⟩

/-- Behind content that waits one value follows as its case. -/
theorem rest_waiting (hkeys : a.contentKey ≠ a.tagKey) :
    a.rest content ⟨none, some j, none⟩ ms = .ok v ↔ allUnder ms a.contentKey = [] ∧
      ∃ t tag, allUnder ms a.tagKey = [t] ∧ choiceOf a.cases t = .ok tag ∧
        content tag j = .ok v := by
  refine rest_iff (P := fun tags contents => contents = [] ∧ ∃ t tag, tags = [t] ∧
    choiceOf a.cases t = .ok tag ∧ content tag j = .ok v) hkeys ?_ (fun t ms => ?_) fun t ms => ?_
  · simp [complete]
  · rw [ofMember, if_pos rfl]
    constructor
    · intro h
      obtain ⟨s, hs, h⟩ := bind_eq_ok.1 h
      obtain ⟨tag, hchoice, hs⟩ := bind_eq_ok.1 hs
      obtain ⟨v₁, hv, hs⟩ := bind_eq_ok.1 hs
      cases hs
      obtain ⟨htags, hcontents, rfl⟩ := (rest_value hkeys).1 h
      exact ⟨hcontents, t, tag, by rw [htags], hchoice, hv⟩
    · rintro ⟨hcontents, t', tag, ht, hchoice, hv⟩
      obtain ⟨rfl, htags⟩ := List.cons_eq_cons.1 ht
      exact bind_eq_ok.2 ⟨_, bind_eq_ok.2 ⟨tag, hchoice, bind_eq_ok.2 ⟨v, hv, rfl⟩⟩,
        (rest_value hkeys).2 ⟨htags, hcontents, rfl⟩⟩
  · rw [ofMember, if_neg hkeys, if_pos rfl]
    exact ⟨nofun, nofun⟩

/-- One value names the case and one is its content, in either order. -/
theorem ofMembers_eq_ok (hkeys : a.contentKey ≠ a.tagKey) : a.ofMembers content ms = .ok v ↔
    ∃ t tag p, allUnder ms a.tagKey = [t] ∧ choiceOf a.cases t = .ok tag ∧
      allUnder ms a.contentKey = [p] ∧ content tag p = .ok v := by
  refine rest_iff (s := start) (P := fun tags contents => ∃ t tag p, tags = [t] ∧
    choiceOf a.cases t = .ok tag ∧ contents = [p] ∧ content tag p = .ok v) hkeys ?_
    (fun j ms => ?_) fun j ms => ?_
  · simp [complete, start]
  · rw [ofMember, if_pos rfl]
    constructor
    · intro h
      obtain ⟨s, hs, h⟩ := bind_eq_ok.1 h
      obtain ⟨tag, hchoice, hs⟩ := bind_eq_ok.1 hs
      cases hs
      obtain ⟨htags, p, hp, hv⟩ := (rest_tag hkeys).1 h
      exact ⟨j, tag, p, by rw [htags], hchoice, hp, hv⟩
    · rintro ⟨t, tag, p, ht, hchoice, hp, hv⟩
      obtain ⟨rfl, htags⟩ := List.cons_eq_cons.1 ht
      exact bind_eq_ok.2 ⟨_, bind_eq_ok.2 ⟨tag, hchoice, rfl⟩,
        (rest_tag hkeys).2 ⟨htags, p, hp, hv⟩⟩
  · rw [ofMember, if_neg hkeys, if_pos rfl]
    constructor
    · intro h
      obtain ⟨hcontents, t, tag, ht, hchoice, hv⟩ := (rest_waiting hkeys).1 h
      exact ⟨t, tag, j, ht, hchoice, by rw [hcontents], hv⟩
    · rintro ⟨t, tag, p, ht, hchoice, hp, hv⟩
      obtain ⟨rfl, hcontents⟩ := List.cons_eq_cons.1 hp
      exact (rest_waiting hkeys).2 ⟨hcontents, t, tag, ht, hchoice, hv⟩

end Adjacency

end WarmCompile.Json
