import WarmCompile.Proofs.Json.Members
import WarmCompile.Proofs.Json.Skip

/-!
A value taken out of a text while it is read is the one taken out of the value that the text is.
-/

namespace WarmCompile.Json

mutual
/-- No choice is anywhere in the shape. Of the content of a case an empty object is as good as
nothing in a value, but not in a text. -/
def Shape.Plain : {α : Type} → Shape α → Prop
  | _, .text | _, .bool | _, .int | _, .size | _, .dictionary => True
  | _, .optional shape | _, .list shape => shape.Plain
  | _, .choice _ _ => False
  | _, .record _ fields _ _ => fields.Plain

def Fields.Plain : {β : Type} → Fields β → Prop
  | _, .none => True
  | _, .field _ shape _ others => shape.Plain ∧ others.Plain
end

variable {d n : Nat} {first : Bool} {cs r rest : List Char} {j : Json} {js : List Json}
  {ms : List (String × Json)}

theorem readWith_of_number {m : Number} {list object : List Char → Except Fault (Parsed Json)}
    (h : readValue d cs = .ok (.number m, rest)) :
    readWith list object cs = .ok (.number m, rest) := by
  have hvalue := value_of_readValue h
  unfold readWith
  generalize skipBlank cs = front at hvalue ⊢
  cases hvalue with
  | below hread => exact bind_eq_ok.2 ⟨_, hread, rfl⟩
  | number hdigit hread =>
    split <;> rename_i heq <;> cases heq
    case h_9 =>
      rw [if_pos hdigit]
      exact bind_eq_ok.2 ⟨_, hread, rfl⟩
    all_goals exact absurd hdigit (by decide)

theorem readBool_of_readValue {b : Bool} (h : readValue d cs = .ok (.bool b, rest)) :
    readBool cs = .ok (b, rest) := by
  have hvalue := value_of_readValue h
  unfold readBool
  generalize skipBlank cs = front at hvalue ⊢
  cases hvalue with
  | yes hword => exact bind_eq_ok.2 ⟨_, hword, rfl⟩
  | no hword => exact bind_eq_ok.2 ⟨_, hword, rfl⟩

theorem readInt_of_intOf {i : Int} (h : readValue d cs = .ok (j, rest)) (hj : intOf j = .ok i) :
    readInt cs = .ok (i, rest) := by
  unfold intOf at hj
  split at hj
  · simp only [readInt, readWith_of_number h]
    split at hj
    · rename_i hsmall
      cases hj
      rw [if_pos hsmall]
    · cases hj
  · simp only [readInt, readWith_of_number h]
    split at hj
    · rename_i hsmall
      cases hj
      rw [if_pos hsmall]
    · cases hj
  · cases hj

theorem readSize_of_sizeOf {m : Nat} (h : readValue d cs = .ok (j, rest)) (hj : sizeOf j = .ok m) :
    readSize cs = .ok (m, rest) := by
  unfold Json.sizeOf at hj
  split at hj
  · cases hj
    simp only [readSize, readWith_of_number h]
  · cases hj
  · cases hj

theorem readItems_of_items {α : Type} {item : List Char → Except Fault (Parsed α)}
    {take : Json → Except Cause α} {as : List α}
    (h : ∀ {j a cs rest}, readValue d cs = .ok (j, rest) → take j = .ok a →
      item cs = .ok (a, rest)) (hitems : Items d n first cs js rest)
    (htakes : itemsOf take js = .ok as) : readItems item n first cs = .ok (as, rest) := by
  induction hitems generalizing as with
  | nil hnext =>
    cases htakes
    exact bind_eq_ok.2 ⟨_, hnext, rfl⟩
  | cons hnext hvalue hmore ih =>
    obtain ⟨a, htake, htakes⟩ := bind_eq_ok.1 htakes
    obtain ⟨as', hrest, has⟩ := bind_eq_ok.1 htakes
    cases has
    exact bind_eq_ok.2 ⟨_, hnext, bind_eq_ok.2 ⟨_, h hvalue htake,
      bind_eq_ok.2 ⟨_, ih hrest, rfl⟩⟩⟩

theorem readDictionary_of_members {t : Table String}
    (h : Members d (r.length + 1) true r ms rest)
    (htakes : dictionaryOf (.object ms) = .ok t) :
    readMembers (fun t key r => do
      let (s, r) ← readTextOf "a string" (← readColon r)
      return (t.insert key s, r)) (r.length + 1) true Table.empty r = .ok (t, rest) := by
  refine readMembers_of_members (fun {t t' key j cs rest} hvalue htake => ?_) h htakes
  obtain ⟨s, hs, htake⟩ := bind_eq_ok.1 htake
  cases htake
  obtain rfl := textOf_eq_ok.1 hs
  obtain ⟨r', hcolon, hvalue⟩ := bind_eq_ok.1 hvalue
  exact bind_eq_ok.2 ⟨r', hcolon, bind_eq_ok.2 ⟨_, readTextOf_eq_ok.2 hvalue, rfl⟩⟩

theorem list_of_readValue (h : readValue d cs = .ok (.list js, rest)) :
    ∃ e r r', d = e + 1 ∧ skipBlank cs = '[' :: r ∧ Items e (r.length + 1) true r js r' ∧
      skipBlank r' = ']' :: rest := by
  have hvalue := value_of_readValue h
  generalize skipBlank cs = front at hvalue ⊢
  cases hvalue with
  | list hd hitems hend => exact ⟨_, _, _, hd, rfl, hitems, hend⟩

theorem skipMember_of_readValue (h : (readColon cs >>= readValue d) = .ok (j, rest)) :
    skipMember cs = .ok rest := by
  obtain ⟨r, hcolon, hvalue⟩ := bind_eq_ok.1 h
  exact bind_eq_ok.2 ⟨r, hcolon, skipValue_of_readValue hvalue⟩

theorem optionalOf_eq {α : Type} {shape : Shape α} (hj : j ≠ .null) :
    shape.optional.ofJson j = shape.ofJson j >>= fun a => .ok (some a) := by
  cases j with
  | null => exact absurd rfl hj
  | _ => rfl

theorem front_ne_of_readValue (h : readValue d cs = .ok (j, rest)) (hj : j ≠ .null) :
    ∀ r, skipBlank cs ≠ 'n' :: r := by
  have hvalue := value_of_readValue h
  intro r hr
  rw [hr] at hvalue
  cases hvalue with
  | null _ => exact hj rfl
  | number hdigit _ => exact absurd hdigit (by decide)

mutual
/-- What a value is taken for when it has been read is what is read in its place. -/
theorem Shape.read_of_ofJson : {α : Type} → (shape : Shape α) → shape.Plain →
    (d : Nat) → (cs : List Char) → (j : Json) → (rest : List Char) → (a : α) →
    readValue d cs = .ok (j, rest) → shape.ofJson j = .ok a → shape.read d cs = .ok (a, rest)
  | _, .text, _, d, cs, j, rest, s, h, hj => by
    obtain rfl := textOf_eq_ok.1 hj
    exact readTextOf_eq_ok.2 h
  | _, .bool, _, d, cs, j, rest, b, h, hj => by
    cases j with
    | bool b' =>
      cases hj
      exact readBool_of_readValue h
    | _ => cases hj
  | _, .int, _, _, _, _, _, _, h, hj => readInt_of_intOf h hj
  | _, .size, _, _, _, _, _, _, h, hj => readSize_of_sizeOf h hj
  | _, .optional shape, hplain, d, cs, j, rest, a, h, hj => by
    by_cases hnull : j = .null
    · subst hnull
      cases hj
      have hvalue := value_of_readValue h
      unfold Shape.read
      generalize skipBlank cs = front at hvalue ⊢
      cases hvalue with
      | null hword => exact bind_eq_ok.2 ⟨_, hword, rfl⟩
    · obtain ⟨b, hb, hj⟩ := bind_eq_ok.1 ((optionalOf_eq hnull).symm.trans hj)
      cases hj
      have hread := shape.read_of_ofJson hplain d (skipBlank cs) j rest b
        ((readValue_skipBlank d cs).trans h) hb
      unfold Shape.read
      split
      · rename_i hblank
        exact absurd hblank (front_ne_of_readValue h hnull _)
      · exact bind_eq_ok.2 ⟨(b, rest), hread, rfl⟩
  | _, .list shape, hplain, d, cs, j, rest, as, h, hj => by
    cases j with
    | list js =>
      obtain ⟨e, r, r', rfl, hblank, hitems, hend⟩ := list_of_readValue h
      have hread := closeList_eq_ok.2 ⟨r', readItems_of_items
        (fun hvalue ha => shape.read_of_ofJson hplain _ _ _ _ _ hvalue ha) hitems hj, hend⟩
      simp only [Shape.read, hblank]
      exact within_eq_ok.2 ⟨e, rfl, hread⟩
    | _ => cases hj
  | _, .dictionary, _, d, cs, j, rest, t, h, hj => by
    cases j with
    | object ms =>
      obtain ⟨e, r, r', rfl, hblank, hmembers, hend⟩ := readValue_eq_object.1 h
      have hread := closeObject_eq_ok.2 ⟨r', readDictionary_of_members hmembers hj, hend⟩
      simp only [Shape.read, hblank]
      exact within_eq_ok.2 ⟨e, rfl, hread⟩
    | _ => cases hj
  | _, .record name fields make _, hplain, d, cs, j, rest, a, h, hj => by
    cases j with
    | list js =>
      obtain ⟨e, r, r', rfl, hblank, hitems, hend⟩ := list_of_readValue h
      obtain ⟨b, hb, hj⟩ := bind_eq_ok.1 hj
      cases hj
      obtain ⟨r'', hread, hend⟩ := fields.readItems_of_ofItems hplain e _ _
        (fields.lengthNoun (recordNoun name)) 0 r js r' rest b hitems hend hb
      simp only [Shape.read, hblank]
      exact within_eq_ok.2 ⟨e, rfl, closeList_eq_ok.2 ⟨r'', bind_eq_ok.2 ⟨_, hread, rfl⟩, hend⟩⟩
    | object ms =>
      obtain ⟨e, r, r', rfl, hblank, hmembers, hend⟩ := readValue_eq_object.1 h
      obtain ⟨slots, hslots, hj⟩ := bind_eq_ok.1 hj
      obtain ⟨b, hb, hj⟩ := bind_eq_ok.1 hj
      cases hj
      have hread := readMembers_of_members
        (fun {s s' key j cs rest} hvalue htake =>
          fields.readMember_of_ofMember hplain e key s s' cs j rest hvalue htake) hmembers hslots
      simp only [Shape.read, hblank]
      refine within_eq_ok.2 ⟨e, rfl, closeObject_eq_ok.2 ⟨r', bind_eq_ok.2 ⟨_, hread, ?_⟩, hend⟩⟩
      simp only [completed_eq_ok.1 hb]
      rfl
    | _ => cases hj

theorem Fields.readMember_of_ofMember : {β : Type} → (fields : Fields β) → fields.Plain →
    (d : Nat) → (key : String) → (slots slots' : fields.Slots) → (cs : List Char) → (j : Json) →
    (rest : List Char) → (readColon cs >>= readValue d) = .ok (j, rest) →
    fields.ofMember slots key j = .ok slots' → fields.readMember d key slots cs = .ok (slots', rest)
  | _, .none, _, d, key, slots, slots', cs, j, rest, h, hj => by
    exact bind_eq_ok.2 ⟨rest, skipMember_of_readValue h, rfl⟩
  | _, .field name shape _ others, hplain, d, key, slots, slots', cs, j, rest, h, hj => by
    obtain ⟨s, slots⟩ := slots
    obtain ⟨s', slots'⟩ := slots'
    by_cases hkey : key = name
    · subst hkey
      obtain ⟨rfl, a, ha, rfl, rfl⟩ := ofMember_field_eq.1 hj
      obtain ⟨r, hcolon, hvalue⟩ := bind_eq_ok.1 h
      have hread := shape.read_of_ofJson hplain.1 d r j rest a hvalue ha
      exact (if_pos rfl).trans (bind_eq_ok.2 ⟨r, hcolon, bind_eq_ok.2 ⟨_, hread, rfl⟩⟩)
    · obtain ⟨rfl, hslots⟩ := (ofMember_field_ne hkey).1 hj
      have hread := others.readMember_of_ofMember hplain.2 d key slots slots' cs j rest h hslots
      exact (if_neg hkey).trans (bind_eq_ok.2 ⟨_, hread, rfl⟩)

theorem Fields.readItems_of_ofItems : {β : Type} → (fields : Fields β) → fields.Plain →
    (d n : Nat) → (noun noun' : String) → (i : Nat) → (cs : List Char) → (js : List Json) →
    (r rest : List Char) → (b : β) → Items d n (i == 0) cs js r → skipBlank r = ']' :: rest →
    fields.ofItems noun i js = .ok b →
    ∃ r', fields.readItems d noun' i cs = .ok (b, r') ∧ skipBlank r' = ']' :: rest
  | _, .none, _, d, n, noun, noun', i, cs, js, r, rest, b, h, hend, hjs => by
    cases h with
    | nil hnext =>
      obtain ⟨rfl, -⟩ := nextItem_end hnext
      rw [skipBlank_skipBlank] at hend
      exact ⟨cs, rfl, hend⟩
    | cons _ _ _ => cases hjs
  | _, .field name shape presence others, hplain, d, n, noun, noun', i, cs, js, r, rest, (a, b), h,
      hend, hjs => by
    cases h with
    | nil hnext =>
      obtain ⟨-, r', rfl⟩ := nextItem_end hnext
      obtain ⟨hpadding, hothers⟩ := ofItems_nil.1 hjs
      -- the bracket is not passed, so that every field behind finds it again
      obtain ⟨r'', hreads, hend⟩ := others.readItems_of_ofItems hplain.2 d 1 noun noun' (i + 1)
        (']' :: r') [] (']' :: r') rest b (.nil rfl) hend hothers
      refine ⟨r'', ?_, hend⟩
      unfold Fields.readItems
      rw [hnext, hpadding]
      refine bind_eq_ok.2 ⟨(false, ']' :: r'), rfl, bind_eq_ok.2 ⟨(a, ']' :: r'), rfl, ?_⟩⟩
      exact bind_eq_ok.2 ⟨_, hreads, rfl⟩
    | cons hnext hvalue hmore =>
      obtain ⟨ha, hothers⟩ := ofItems_cons.1 hjs
      have hread := shape.read_of_ofJson hplain.1 _ _ _ _ _ hvalue ha
      obtain ⟨r', hreads, hend⟩ := others.readItems_of_ofItems hplain.2 _ _ _ noun' _ _ _ _ _ _
        hmore hend hothers
      refine ⟨r', bind_eq_ok.2 ⟨_, hnext, bind_eq_ok.2 ⟨_, hread, ?_⟩⟩, hend⟩
      exact bind_eq_ok.2 ⟨_, hreads, rfl⟩
end

/-- A text that is a value may as well be read as what the value is taken for. -/
theorem Shape.parse_of_parse {α : Type} {shape : Shape α} {text : String} {a : α}
    (hplain : shape.Plain) (h : Json.parse text = .ok j) (hj : shape.ofJson j = .ok a) :
    shape.parse text = .ok a := by
  obtain ⟨r, hread, hend⟩ := finish_eq_ok.1 h
  have htyped := shape.read_of_ofJson hplain depthLimit text.toList j r a hread hj
  exact finish_eq_ok.2 ⟨r, htyped, hend⟩

end WarmCompile.Json
