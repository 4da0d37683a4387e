import Mathlib.Data.List.Perm.Basic
import WarmCompile.Proofs.Json.Members
import WarmCompile.Proofs.Json.Shape

/-!
What is left of a value when members are taken out of its objects, wherever they are nested, others
come in, and they change places.
-/

namespace WarmCompile.Json

/-- What holds of the paths that start with a key. -/
def beyond (key : String) (p : List String → Bool) (path : List String) : Bool :=
  p (key :: path)

mutual
/-- A value of which only the members on some paths are kept. New keys have only come into objects
that were `extended`. -/
inductive Remnant : (List String → Bool) → (List String → Bool) → Json → Json → Prop where
  | leaf {kept extended : List String → Bool} {j : Json} (h : ∀ ms, j ≠ .object ms) :
    Remnant kept extended j j
  | object {kept extended : List String → Bool} {ms left more ms' : List (String × Json)}
    (hleft : Left kept extended ms left)
    (hmore : ∀ m ∈ more, extended [] = true ∧ m.1 ∉ ms.map (·.1))
    (horder : ms'.Perm (left ++ more)) : Remnant kept extended (.object ms) (.object ms')

/-- The members that are kept, and what is left of each. -/
inductive Left : (List String → Bool) → (List String → Bool) → List (String × Json) →
    List (String × Json) → Prop where
  | nil {kept extended : List String → Bool} : Left kept extended [] []
  | kept {kept extended : List String → Bool} {key : String} {j j' : Json}
    {ms left : List (String × Json)} (hkey : kept [key] = true)
    (hvalue : Remnant (beyond key kept) (beyond key extended) j j')
    (hleft : Left kept extended ms left) :
    Left kept extended ((key, j) :: ms) ((key, j') :: left)
  | gone {kept extended : List String → Bool} {key : String} {j : Json}
    {ms left : List (String × Json)} (hkey : kept [key] = false)
    (hleft : Left kept extended ms left) : Left kept extended ((key, j) :: ms) left
end

mutual
/-- A value of which everything is kept is one of its remnants. -/
theorem Remnant.refl (extended : List String → Bool) :
    (j : Json) → Remnant (fun _ => true) extended j j
  | .null => .leaf (by simp)
  | .bool _ => .leaf (by simp)
  | .number _ => .leaf (by simp)
  | .text _ => .leaf (by simp)
  | .list _ => .leaf (by simp)
  | .object ms => .object (Left.refl extended ms) (fun _ hm => absurd hm List.not_mem_nil)
    (.of_eq (List.append_nil ms).symm)

theorem Left.refl (extended : List String → Bool) :
    (ms : List (String × Json)) → Left (fun _ => true) extended ms ms
  | [] => .nil
  | (key, j) :: ms => .kept rfl (Remnant.refl (beyond key extended) j) (Left.refl extended ms)
end

variable {kept extended : List String → Bool} {ms left ms' : List (String × Json)} {key : String}
  {j : Json}

/-- Under a key that is kept there is what is left of each value, under any other nothing. -/
theorem Left.allUnder (h : Left kept extended ms left) (key : String) :
    List.Forall₂ (Remnant (beyond key kept) (beyond key extended))
      (if kept [key] then Json.allUnder ms key else []) (Json.allUnder left key) := by
  induction ms generalizing left with
  | nil =>
    cases h
    split <;> exact .nil
  | cons m ms ih =>
    cases h with
    | @kept _ _ key' _ _ _ _ hkey hvalue hleft =>
      rw [allUnder_cons, allUnder_cons]
      by_cases he : key' = key
      · subst he
        have hrest := ih hleft
        rw [if_pos hkey] at hrest ⊢
        rw [if_pos rfl, if_pos rfl]
        exact .cons hvalue hrest
      · rw [if_neg he, if_neg he]
        exact ih hleft
    | @gone _ _ key' _ _ _ hkey hleft =>
      rw [allUnder_cons]
      by_cases he : key' = key
      · subst he
        have hrest := ih hleft
        rw [hkey] at hrest ⊢
        exact hrest
      · rw [if_neg he]
        exact ih hleft

theorem Remnant.allUnder (h : Remnant kept extended (.object ms) (.object ms'))
    (hone : Json.allUnder ms key = [j]) :
    if kept [key] then ∃ j', Json.allUnder ms' key = [j'] ∧
      Remnant (beyond key kept) (beyond key extended) j j'
    else Json.allUnder ms' key = [] := by
  cases h with
  | leaf h => exact absurd rfl (h ms)
  | @object _ _ _ left more _ hleft hmore horder =>
    have hnone : Json.allUnder more key = [] := by
      refine allUnder_eq_nil.2 fun hmem => ?_
      obtain ⟨m, hm, rfl⟩ := List.mem_map.1 hmem
      have hnil := allUnder_eq_nil.2 (hmore m hm).2
      exact absurd (hone.symm.trans hnil) (List.cons_ne_nil _ _)
    have hperm := allUnder_perm horder key
    rw [allUnder_append, hnone, List.append_nil] at hperm
    have hall := hleft.allUnder key
    rw [hone] at hall
    cases hkey : kept [key] with
    | true =>
      rw [hkey, if_pos rfl] at hall
      obtain ⟨j', _, hvalue, hrest, hleft⟩ := List.forall₂_cons_left_iff.1 hall
      rw [List.forall₂_nil_left_iff.1 hrest] at hleft
      rw [hleft] at hperm
      exact ⟨j', List.perm_singleton.1 hperm, hvalue⟩
    | false =>
      rw [hkey] at hall
      rw [List.forall₂_nil_left_iff.1 hall] at hperm
      exact List.perm_nil.1 hperm

theorem Remnant.exists_object (h : Remnant kept extended (.object ms) j) :
    ∃ ms', j = .object ms' := by
  cases h with
  | leaf _ => exact ⟨ms, rfl⟩
  | object _ _ _ => exact ⟨_, rfl⟩

theorem Remnant.eq_of_leaf {j' : Json} (h : Remnant kept extended j j')
    (hj : ∀ ms, j ≠ .object ms) : j' = j := by
  cases h with
  | leaf _ => rfl
  | object _ _ _ => exact absurd rfl (hj _)

/-! ### Fields with defaults -/

section

variable {α β : Type} {name : String} {take : Json → Except Cause α} {a : α}

/-- Under a name there is what a value is taken out of, or nothing if it was not kept. -/
def Told (ms : List (String × Json)) (name : String) (kept : Bool)
    (take : Json → Except Cause α) (a : α) : Prop :=
  if kept then ∃ j, allUnder ms name = [j] ∧ take j = .ok a else allUnder ms name = []

theorem Told.filter_ne {kept : Bool} (h : Told ms name kept take a) (hne : key ≠ name) :
    Told (ms.filter (·.1 ≠ key)) name kept take a := by
  unfold Told
  rw [allUnder_filter_ne hne]
  exact h

theorem Remnant.told (h : Remnant kept extended (.object ms) (.object ms'))
    (hone : Json.allUnder ms name = [j])
    (htake : ∀ j', Remnant (beyond name kept) (beyond name extended) j j' → take j' = .ok a) :
    Told ms' name (kept [name]) take a := by
  have hunder := h.allUnder hone
  unfold Told
  split
  · rename_i hkept
    rw [if_pos hkept] at hunder
    obtain ⟨j', hone', hvalue⟩ := hunder
    exact ⟨j', hone', htake j' hvalue⟩
  · rename_i hkept
    rw [if_neg hkept] at hunder
    exact hunder

theorem Remnant.told_leaf (h : Remnant kept extended (.object ms) (.object ms'))
    (hone : Json.allUnder ms name = [j]) (hj : ∀ ms, j ≠ .object ms) (htake : take j = .ok a) :
    Told ms' name (kept [name]) take a := by
  refine h.told hone fun j' hj' => ?_
  rw [hj'.eq_of_leaf hj]
  exact htake

/-- A field with a default is made of what stands under its name, or of nothing. -/
theorem ofMembers_defaulted {shape : Shape α} {others : Fields β} {kept : Bool} {d : α} {b : β}
    (htold : Told ms name kept shape.ofJson a)
    (hothers : others.ofMembers (ms.filter (·.1 ≠ name)) = .ok b) :
    (Fields.field name shape (.defaulted d) others).ofMembers ms =
      .ok (if kept then a else d, b) := by
  refine ofMembers_field.2 ⟨?_, hothers⟩
  cases kept with
  | true =>
    exact .inr htold
  | false => exact .inl ⟨htold, rfl⟩

end

/-! ### Dictionaries -/

theorem exists_of_perm_map {α β : Type} {f : α → β} {l : List α} {l' : List β}
    (h : l'.Perm (l.map f)) : ∃ l'' : List α, l' = l''.map f ∧ l''.Perm l := by
  change Relation.Comp (· = List.map f ·) List.Perm l' l
  rw [List.eq_map_comp_perm]
  exact h

theorem Left.texts {es : List (String × String)}
    (h : Left kept extended (es.map fun e => (e.1, .text e.2)) left) :
    left = (es.filter fun e => kept [e.1]).map fun e => (e.1, .text e.2) := by
  induction es generalizing left with
  | nil =>
    cases h
    rfl
  | cons e es ih =>
    cases h with
    | kept hkey hvalue hleft =>
      cases hvalue
      rw [List.filter_cons_of_pos (by simpa using hkey), List.map_cons, ← ih hleft]
    | gone hkey hleft =>
      rw [List.filter_cons_of_neg (by simpa using hkey), ih hleft]

/-- Of a dictionary into which nothing has come, the entries that are kept are left. -/
theorem dictionaryOf_remnant {t : Table String} (hclosed : extended [] = false)
    (h : Remnant kept extended (Shape.dictionary.toJson t) j) :
    Shape.dictionary.ofJson j = .ok (t.restrict fun key => kept [key]) := by
  cases h with
  | leaf h => exact absurd rfl (h _)
  | @object _ _ _ left more ms' hleft hmore horder =>
    obtain rfl : more = [] := List.eq_nil_iff_forall_not_mem.2 fun m hm =>
      absurd (hmore m hm).1 (by rw [hclosed]; exact nofun)
    rw [List.append_nil, hleft.texts] at horder
    obtain ⟨es, rfl, hes⟩ := exists_of_perm_map horder
    exact (dictionaryOf_map es).trans (congrArg _ (Table.ofList_of_perm hes))

end WarmCompile.Json
