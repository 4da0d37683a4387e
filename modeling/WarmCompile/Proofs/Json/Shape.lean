import WarmCompile.Json.Shape.Tree
import WarmCompile.Proofs.Json.Value
import WarmCompile.Proofs.Table

/-!
What a shape prints, it takes back: every value that fits its shape is the value taken out of its
JSON form, and that form can be written and read again.
-/

namespace WarmCompile.Json

/-! ### Dictionaries -/

theorem dictionaryOf_map (es : List (String × String)) :
    dictionaryOf (.object (es.map fun e => (e.1, .text e.2))) = .ok (.ofList es) := by
  have hinsert : ∀ (es : List (String × String)) (t : Table String),
      membersOf (fun t k j => do return t.insert k (← textOf j)) t
        (es.map fun e => (e.1, Json.text e.2)) = .ok (t.insertAll es) := by
    intro es
    induction es with
    | nil => exact fun t => rfl
    | cons e es ih => exact fun t => ih (t.insert e.1 e.2)
  exact hinsert es .empty

theorem dictionaryOf_entries (t : Table String) :
    dictionaryOf (.object (t.entries.map fun e => (e.1, .text e.2))) = .ok t := by
  rw [dictionaryOf_map]
  exact congrArg _ t.insertAll_entries

/-! ### Shapes -/

mutual
/-- A value that its shape can tell from all others. -/
def Shape.Fits : {α : Type} → Shape α → α → Prop
  | _, .text, _ => True
  | _, .bool, _ => True
  | _, .int, n => -0x80000000 ≤ n ∧ n < 0x80000000
  | _, .size, n => n < 0x10000000000000000
  | _, .optional _, Option.none => True
  | _, .optional shape, some a => shape.toJson a ≠ .null ∧ shape.Fits a
  | _, .list shape, as => ∀ a ∈ as, shape.Fits a
  | _, .dictionary, _ => True
  | _, .choice cases name, a => cases.lookup (name a) = some a
  | _, .record _ fields make parts, a =>
    make (parts a) = a ∧ fields.names.Nodup ∧ fields.Fits (parts a)

/-- A field that is not shown has its fallback. -/
def Fields.Fits : {β : Type} → Fields β → β → Prop
  | _, .none, _ => True
  | _, .field _ shape presence others, (a, b) =>
    shape.Fits a ∧ (presence.isShown a = false → presence.fallback? = some a) ∧ others.Fits b
end

mutual
/-- How many brackets the form of a shape can have around a part. -/
def Shape.depth : {α : Type} → Shape α → Nat
  | _, .text | _, .bool | _, .int | _, .size | _, .choice _ _ => 0
  | _, .optional shape => shape.depth
  | _, .list shape => shape.depth + 1
  | _, .dictionary => 1
  | _, .record _ fields _ _ => fields.depth + 1

def Fields.depth : {β : Type} → Fields β → Nat
  | _, .none => 0
  | _, .field _ shape _ others => max shape.depth others.depth
end

theorem legible_int {d : Nat} {n : Int} (hn : -0x80000000 ≤ n ∧ n < 0x80000000) :
    Legible d (Shape.int.toJson n) := by
  refine .number ?_
  split
  · exact ⟨by omega, by omega⟩
  · exact (by omega : n.natAbs < 0x10000000000000000)

theorem intOf_toJson {n : Int} (hn : -0x80000000 ≤ n ∧ n < 0x80000000) :
    intOf (Shape.int.toJson n) = .ok n := by
  simp only [Shape.toJson]
  split
  · rw [intOf, if_pos (by omega)]
    exact congrArg _ (by omega)
  · rw [intOf, if_pos (by omega)]
    exact congrArg _ (by omega)

mutual
theorem Shape.legible : {α : Type} → (shape : Shape α) → (a : α) → shape.Fits a →
    Legible shape.depth (shape.toJson a)
  | _, .text, s, _ => .text s
  | _, .bool, b, _ => .bool b
  | _, .int, _, h => legible_int h
  | _, .size, _, h => .number h
  | _, .optional _, Option.none, _ => .null
  | _, .optional shape, some a, h => shape.legible a h.2
  | _, .list shape, as, h => by
    refine .list fun j hj => ?_
    obtain ⟨a, ha, rfl⟩ := List.mem_map.1 hj
    exact shape.legible a (h a ha)
  | _, .dictionary, t, _ => by
    refine .object fun m hm => ?_
    obtain ⟨e, -, rfl⟩ := List.mem_map.1 hm
    exact .text e.2
  | _, .choice _ name, a, _ => .text (name a)
  | _, .record _ fields _ parts, a, h => .object (fields.legible (parts a) h.2.2)

theorem Fields.legible : {β : Type} → (fields : Fields β) → (b : β) → fields.Fits b →
    ∀ m ∈ fields.toMembers b, Legible fields.depth m.2
  | _, .none, _, _ => nofun
  | _, .field name shape presence others, (a, b), h => by
    intro m hm
    have hothers := others.legible b h.2.2
    have hmore : m ∈ others.toMembers b → Legible (Fields.field name shape presence others).depth m.2 :=
      fun hm => (hothers m hm).mono (Nat.le_max_right _ _)
    simp only [Fields.toMembers] at hm
    split at hm
    · rcases List.mem_cons.1 hm with rfl | hm
      · exact (shape.legible a h.1).mono (Nat.le_max_left _ _)
      · exact hmore hm
    · exact hmore hm
end

theorem itemsOf_map {α : Type} {item : Json → Except Cause α} {form : α → Json} {as : List α}
    (h : ∀ a ∈ as, item (form a) = .ok a) : itemsOf item (as.map form) = .ok as := by
  induction as with
  | nil => rfl
  | cons a as ih =>
    have hfirst := h a List.mem_cons_self
    have hrest := ih fun a ha => h a (List.mem_cons_of_mem _ ha)
    simp only [List.map_cons, itemsOf, hfirst, hrest, bind, Except.bind]
    rfl

theorem choiceOf_text {α : Type} {cases : List (String × α)} {name : String} {a : α}
    (h : cases.lookup name = some a) : choiceOf cases (.text name) = .ok a := by
  simp only [choiceOf, variantOf, caseOf, h, bind, Except.bind]
  rfl

section

variable {α β : Type} {name : String} {others : Fields β}

theorem Fields.mem_names : {β : Type} → (fields : Fields β) → (b : β) →
    ∀ m ∈ fields.toMembers b, m.1 ∈ fields.names
  | _, .none, _ => nofun
  | _, .field name _ presence others, (a, b) => by
    intro m hm
    have hothers := others.mem_names b
    simp only [Fields.toMembers] at hm
    split at hm
    · rcases List.mem_cons.1 hm with rfl | hm
      · exact List.mem_cons_self
      · exact List.mem_cons_of_mem _ (hothers m hm)
    · exact List.mem_cons_of_mem _ (hothers m hm)

/-- Members under other names go to the other fields. -/
theorem membersOf_others (shape : Shape α) (presence : Presence α) {ms : List (String × Json)}
    (hms : ∀ m ∈ ms, m.1 ≠ name) (slot : Option α) {slots slots' : others.Slots}
    (h : membersOf others.ofMember slots ms = .ok slots') :
    membersOf (Fields.field name shape presence others).ofMember (slot, slots) ms =
      .ok (slot, slots') := by
  induction ms generalizing slots with
  | nil =>
    cases h
    rfl
  | cons m ms ih =>
    obtain ⟨key, j⟩ := m
    have hkey : key ≠ name := hms (key, j) List.mem_cons_self
    simp only [membersOf, bind, Except.bind] at h ⊢
    cases hmember : others.ofMember slots key j with
    | error cause =>
      rw [hmember] at h
      cases h
    | ok slots₁ =>
      rw [hmember] at h
      have hhere : (Fields.field name shape presence others).ofMember (slot, slots) key j =
          .ok (slot, slots₁) := by
        refine (if_neg hkey).trans ?_
        rw [hmember]
        rfl
      rw [hhere]
      exact ih (fun m hm => hms m (List.mem_cons_of_mem _ hm)) h

end

mutual
theorem Shape.ofJson_toJson : {α : Type} → (shape : Shape α) → (a : α) → shape.Fits a →
    shape.ofJson (shape.toJson a) = .ok a
  | _, .text, _, _ => rfl
  | _, .bool, _, _ => rfl
  | _, .int, _, h => intOf_toJson h
  | _, .size, _, _ => rfl
  | _, .optional _, Option.none, _ => rfl
  | _, .optional shape, some a, h => by
    have hinner := shape.ofJson_toJson a h.2
    simp only [Shape.toJson]
    cases hj : shape.toJson a with
    | null => exact absurd hj h.1
    | _ =>
      rw [hj] at hinner
      simp only [Shape.ofJson, hinner]
      rfl
  | _, .list shape, as, h => itemsOf_map fun a ha => shape.ofJson_toJson a (h a ha)
  | _, .dictionary, t, _ => dictionaryOf_entries t
  | _, .choice _ _, _, h => choiceOf_text h
  | _, .record _ fields make parts, a, h => by
    obtain ⟨slots, hmembers, hcomplete⟩ := fields.ofMembers_toMembers (parts a) h.2.1 h.2.2
    simp only [Shape.toJson, Shape.ofJson, hmembers, completed, hcomplete, bind, Except.bind]
    exact congrArg _ h.1

/-- The members of fields fill them, all but those that are not shown. -/
theorem Fields.ofMembers_toMembers : {β : Type} → (fields : Fields β) → (b : β) →
    fields.names.Nodup → fields.Fits b →
    ∃ slots, membersOf fields.ofMember fields.empty (fields.toMembers b) = .ok slots ∧
      fields.complete slots = .ok b
  | _, .none, _, _, _ => ⟨(), rfl, rfl⟩
  | _, .field name shape presence others, (a, b), hnames, h => by
    obtain ⟨hname, hnodup⟩ := List.nodup_cons.1 hnames
    obtain ⟨hfits, hhidden, hothers⟩ := h
    obtain ⟨slots, hmembers, hcomplete⟩ := others.ofMembers_toMembers b hnodup hothers
    have hkeys : ∀ m ∈ others.toMembers b, m.1 ≠ name :=
      fun m hm he => hname (he ▸ others.mem_names b m hm)
    cases hshown : presence.isShown a with
    | true =>
      have hinner := shape.ofJson_toJson a hfits
      have hrest := membersOf_others shape presence hkeys (some a) hmembers
      refine ⟨(some a, slots), ?_, ?_⟩
      · simp only [Fields.toMembers, hshown, if_true, membersOf, Fields.ofMember, Fields.empty,
          Option.isSome_none, Bool.false_eq_true, hinner, bind, Except.bind]
        exact hrest
      · simp only [Fields.complete, hcomplete]
        rfl
    | false =>
      have hrest := membersOf_others shape presence hkeys none hmembers
      refine ⟨(none, slots), ?_, ?_⟩
      · simp only [Fields.toMembers, hshown, Bool.false_eq_true, if_false]
        exact hrest
      · simp only [Fields.complete, hhidden hshown, hcomplete]
        rfl
end

theorem Fields.ofMembers_eq {β : Type} {fields : Fields β} {b : β} (hnames : fields.names.Nodup)
    (h : fields.Fits b) : fields.ofMembers (fields.toMembers b) = .ok b := by
  obtain ⟨slots, hmembers, hcomplete⟩ := fields.ofMembers_toMembers b hnames h
  simp only [Fields.ofMembers, hmembers, completed, hcomplete, bind, Except.bind]

end WarmCompile.Json
