import WarmCompile.Json.Shape.Text
import WarmCompile.Json.Shape.Tree
import WarmCompile.Proofs.Except
import WarmCompile.Proofs.Json.Value

/-!
Members taken in while they are read are as good as members that are read first and taken in then.
-/

namespace WarmCompile.Json

/-- The members that stand in a text up to the closing brace, each value with at most `d` brackets
around any part of it. -/
inductive Members (d : Nat) :
    Nat → Bool → List Char → List (String × Json) → List Char → Prop where
  | nil {n : Nat} {first : Bool} {cs rest : List Char} (h : nextKey first cs = .ok (false, rest)) :
    Members d (n + 1) first cs [] rest
  | cons {n : Nat} {first : Bool} {cs r r₁ r₂ rest : List Char} {key : String} {j : Json}
    {ms : List (String × Json)} (hnext : nextKey first cs = .ok (true, r))
    (hkey : readString r = .ok (key, r₁)) (hvalue : (readColon r₁ >>= readValue d) = .ok (j, r₂))
    (hmore : Members d n false r₂ ms rest) : Members d (n + 1) first cs ((key, j) :: ms) rest

/-- The items that stand in a text up to the closing bracket, each with at most `d` brackets around
any part of it. -/
inductive Items (d : Nat) : Nat → Bool → List Char → List Json → List Char → Prop where
  | nil {n : Nat} {first : Bool} {cs rest : List Char} (h : nextItem first cs = .ok (false, rest)) :
    Items d (n + 1) first cs [] rest
  | cons {n : Nat} {first : Bool} {cs r r₁ rest : List Char} {j : Json} {js : List Json}
    (hnext : nextItem first cs = .ok (true, r)) (hvalue : readValue d r = .ok (j, r₁))
    (hmore : Items d n false r₁ js rest) : Items d (n + 1) first cs (j :: js) rest

/-- A value that stands at the front of a text without blanks ahead of it. -/
inductive Value (d : Nat) : List Char → Json → List Char → Prop where
  | null {r rest : List Char} (h : readWord "ull".toList r = .ok rest) :
    Value d ('n' :: r) .null rest
  | yes {r rest : List Char} (h : readWord "rue".toList r = .ok rest) :
    Value d ('t' :: r) (.bool true) rest
  | no {r rest : List Char} (h : readWord "alse".toList r = .ok rest) :
    Value d ('f' :: r) (.bool false) rest
  | text {r rest : List Char} {s : String} (h : readString r = .ok (s, rest)) :
    Value d ('"' :: r) (.text s) rest
  | below {r rest : List Char} {n : Number} (h : readNumber true r = .ok (n, rest)) :
    Value d ('-' :: r) (.number n) rest
  | number {c : Char} {r rest : List Char} {n : Number} (hdigit : isDigit c = true)
    (h : readNumber false (c :: r) = .ok (n, rest)) : Value d (c :: r) (.number n) rest
  | list {e : Nat} {r r₁ rest : List Char} {js : List Json} (hd : d = e + 1)
    (h : Items e (r.length + 1) true r js r₁) (hend : skipBlank r₁ = ']' :: rest) :
    Value d ('[' :: r) (.list js) rest
  | object {e : Nat} {r r₁ rest : List Char} {ms : List (String × Json)} (hd : d = e + 1)
    (h : Members e (r.length + 1) true r ms r₁) (hend : skipBlank r₁ = '\x7d' :: rest) :
    Value d ('\x7b' :: r) (.object ms) rest

section

variable {σ α : Type} {member : σ → String → List Char → Except Fault (Parsed σ)}
  {take : σ → String → Json → Except Cause σ} {d n : Nat} {first : Bool} {s s' : σ}
  {ms : List (String × Json)} {cs rest : List Char}

/-- A member taken in while it is read is as good as one that is read first and taken in then. -/
def Agrees (d : Nat) (member : σ → String → List Char → Except Fault (Parsed σ))
    (take : σ → String → Json → Except Cause σ) : Prop :=
  ∀ s s' key cs rest, member s key cs = .ok (s', rest) ↔
    ∃ j, (readColon cs >>= readValue d) = .ok (j, rest) ∧ take s key j = .ok s'

theorem textOf_eq_ok {j : Json} {t : String} : textOf j = .ok t ↔ j = .text t := by
  cases j <;> simp [textOf, wrongTypeOf]

theorem readMembers_of_members
    (h : ∀ {s s' key j cs rest}, (readColon cs >>= readValue d) = .ok (j, rest) →
      take s key j = .ok s' → member s key cs = .ok (s', rest))
    (hmembers : Members d n first cs ms rest) (htakes : membersOf take s ms = .ok s') :
    readMembers member n first s cs = .ok (s', rest) := by
  induction hmembers generalizing s with
  | nil hnext =>
    cases htakes
    exact bind_eq_ok.2 ⟨_, hnext, rfl⟩
  | cons hnext hkey hvalue hmore ih =>
    obtain ⟨s₁, htake, htakes⟩ := bind_eq_ok.1 htakes
    exact bind_eq_ok.2 ⟨_, hnext, bind_eq_ok.2 ⟨_, hkey, bind_eq_ok.2
      ⟨_, h hvalue htake, ih htakes⟩⟩⟩

theorem readMembers_eq_ok (h : Agrees d member take) :
    readMembers member n first s cs = .ok (s', rest) ↔
      ∃ ms, Members d n first cs ms rest ∧ membersOf take s ms = .ok s' := by
  constructor
  · intro hread
    induction n generalizing first s cs with
    | zero => cases hread
    | succ n ih =>
      obtain ⟨⟨more, r⟩, hnext, hread⟩ := bind_eq_ok.1 hread
      cases more with
      | false =>
        cases hread
        exact ⟨[], .nil hnext, rfl⟩
      | true =>
        obtain ⟨⟨key, r₁⟩, hkey, hread⟩ := bind_eq_ok.1 hread
        obtain ⟨⟨s₁, r₂⟩, hmember, hread⟩ := bind_eq_ok.1 hread
        obtain ⟨j, hvalue, htake⟩ := (h _ _ _ _ _).1 hmember
        obtain ⟨ms, hmembers, htakes⟩ := ih hread
        exact ⟨(key, j) :: ms, .cons hnext hkey hvalue hmembers, bind_eq_ok.2 ⟨s₁, htake, htakes⟩⟩
  · rintro ⟨ms, hmembers, htakes⟩
    exact readMembers_of_members (fun hvalue htake => (h _ _ _ _ _).2 ⟨_, hvalue, htake⟩) hmembers
      htakes

/-- Takes in a member in front of those taken in before. -/
def taking (taken : List (String × Json)) (key : String) (j : Json) :
    Except Cause (List (String × Json)) :=
  .ok ((key, j) :: taken)

theorem membersOf_taking (taken ms : List (String × Json)) :
    membersOf taking taken ms = .ok (ms.reverse ++ taken) := by
  induction ms generalizing taken with
  | nil => rfl
  | cons m ms ih =>
    rw [List.reverse_cons, List.append_assoc]
    exact ih (m :: taken)

theorem agrees_readMember (d : Nat) : Agrees d (readMember d) taking := by
  intro taken taken' key cs rest
  constructor
  · intro h
    obtain ⟨r, hcolon, h⟩ := bind_eq_ok.1 h
    obtain ⟨⟨j, r'⟩, hvalue, h⟩ := bind_eq_ok.1 h
    cases h
    exact ⟨j, bind_eq_ok.2 ⟨r, hcolon, hvalue⟩, rfl⟩
  · rintro ⟨j, h, htaken⟩
    cases htaken
    obtain ⟨r, hcolon, hvalue⟩ := bind_eq_ok.1 h
    exact bind_eq_ok.2 ⟨r, hcolon, bind_eq_ok.2 ⟨(j, rest), hvalue, rfl⟩⟩

theorem closeObject_eq_ok {x : Except Fault (Parsed α)} {v : α} :
    closeObject x = .ok (v, rest) ↔ ∃ r, x = .ok (v, r) ∧ skipBlank r = '\x7d' :: rest := by
  constructor
  · intro h
    unfold closeObject at h
    split at h
    · rename_i v' r
      split at h
      · cases h
      · rename_i hblank
        cases h
        exact ⟨r, rfl, hblank⟩
      · cases h
      · cases h
    · split at h
      · cases h
      · split at h <;> cases h
  · rintro ⟨r, rfl, hblank⟩
    simp only [closeObject, hblank]

theorem closeList_eq_ok {x : Except Fault (Parsed α)} {v : α} :
    closeList x = .ok (v, rest) ↔ ∃ r, x = .ok (v, r) ∧ skipBlank r = ']' :: rest := by
  constructor
  · intro h
    unfold closeList at h
    split at h
    · rename_i v' r
      split at h
      · cases h
      · rename_i hblank
        cases h
        exact ⟨r, rfl, hblank⟩
      · split at h <;> cases h
      · cases h
    · split at h
      · cases h
      · split at h <;> cases h
  · rintro ⟨r, rfl, hblank⟩
    simp only [closeList, hblank]

theorem items_of_readItems {js : List Json}
    (h : readItems (readValue d) n first cs = .ok (js, rest)) : Items d n first cs js rest := by
  induction n generalizing first cs js with
  | zero => cases h
  | succ n ih =>
    obtain ⟨⟨more, r⟩, hnext, h⟩ := bind_eq_ok.1 h
    cases more with
    | false =>
      cases h
      exact .nil hnext
    | true =>
      obtain ⟨⟨j, r₁⟩, hvalue, h⟩ := bind_eq_ok.1 h
      obtain ⟨⟨js', r₂⟩, hmore, h⟩ := bind_eq_ok.1 h
      cases h
      exact .cons hnext hvalue (ih hmore)

theorem value_of_readWith {list object : List Char → Except Fault (Parsed Json)}
    (hlist : ∀ r, list r = .ok (j, rest) → Value d ('[' :: r) j rest)
    (hobject : ∀ r, object r = .ok (j, rest) → Value d ('\x7b' :: r) j rest)
    (h : readWith list object cs = .ok (j, rest)) : Value d (skipBlank cs) j rest := by
  unfold readWith at h
  generalize skipBlank cs = front at h ⊢
  split at h
  · cases h
  · obtain ⟨_, hword, h⟩ := bind_eq_ok.1 h
    cases h
    exact .null hword
  · obtain ⟨_, hword, h⟩ := bind_eq_ok.1 h
    cases h
    exact .yes hword
  · obtain ⟨_, hword, h⟩ := bind_eq_ok.1 h
    cases h
    exact .no hword
  · obtain ⟨_, hstring, h⟩ := bind_eq_ok.1 h
    cases h
    exact .text hstring
  · obtain ⟨_, hnumber, h⟩ := bind_eq_ok.1 h
    cases h
    exact .below hnumber
  · exact hlist _ h
  · exact hobject _ h
  · split at h
    · rename_i hdigit
      obtain ⟨_, hnumber, h⟩ := bind_eq_ok.1 h
      cases h
      exact .number hdigit hnumber
    · cases h

theorem value_of_readValue (h : readValue d cs = .ok (j, rest)) :
    Value d (skipBlank cs) j rest := by
  cases d with
  | zero =>
    have hscalar : readWith tooDeep tooDeep cs = .ok (j, rest) := h
    refine value_of_readWith (fun r hr => ?_) (fun r hr => ?_) hscalar
    · cases hr
    · cases hr
  | succ e =>
    refine value_of_readWith (fun r hr => ?_) (fun r hr => ?_) h
    · obtain ⟨r₁, hr, hend⟩ := closeList_eq_ok.1 hr
      obtain ⟨⟨js, r₂⟩, hread, hr⟩ := bind_eq_ok.1 hr
      cases hr
      exact .list rfl (items_of_readItems hread) hend
    · obtain ⟨r₁, hr, hend⟩ := closeObject_eq_ok.1 hr
      obtain ⟨⟨taken, r₂⟩, hread, hr⟩ := bind_eq_ok.1 hr
      cases hr
      obtain ⟨ms, hmembers, htaken⟩ := (readMembers_eq_ok (agrees_readMember e)).1 hread
      rw [membersOf_taking] at htaken
      cases htaken
      rw [List.append_nil, List.reverse_reverse]
      exact .object rfl hmembers hend

theorem readValue_eq_object : readValue d cs = .ok (.object ms, rest) ↔
    ∃ e r r', d = e + 1 ∧ skipBlank cs = '\x7b' :: r ∧ Members e (r.length + 1) true r ms r' ∧
      skipBlank r' = '\x7d' :: rest := by
  constructor
  · intro h
    have hvalue := value_of_readValue h
    generalize skipBlank cs = front at hvalue ⊢
    cases hvalue with
    | object hd hmembers hend => exact ⟨_, _, _, hd, rfl, hmembers, hend⟩
  · rintro ⟨e, r, r', rfl, hblank, hmembers, hend⟩
    have hread := (readMembers_eq_ok (agrees_readMember e)).2
      ⟨ms, hmembers, membersOf_taking [] ms⟩
    rw [List.append_nil] at hread
    unfold readValue readWith
    rw [hblank]
    refine closeObject_eq_ok.2 ⟨r', bind_eq_ok.2 ⟨_, hread, ?_⟩, hend⟩
    simp only [List.reverse_reverse]
    rfl

theorem readValue_eq_text {t : String} : readValue d cs = .ok (.text t, rest) ↔
    ∃ r, skipBlank cs = '"' :: r ∧ readString r = .ok (t, rest) := by
  constructor
  · intro h
    have hvalue := value_of_readValue h
    generalize skipBlank cs = front at hvalue ⊢
    cases hvalue with
    | text hstring => exact ⟨_, rfl, hstring⟩
  · rintro ⟨r, hblank, hstring⟩
    cases d with
    | zero =>
      unfold readValue readWith
      rw [hblank]
      exact bind_eq_ok.2 ⟨_, hstring, rfl⟩
    | succ d =>
      unfold readValue readWith
      rw [hblank]
      exact bind_eq_ok.2 ⟨_, hstring, rfl⟩

theorem wrongType_ne_ok {expected : String} {v : α} : wrongType expected cs ≠ .ok (v, rest) := by
  intro h
  unfold wrongType at h
  split at h
  · cases h
  · cases h
  · cases h
  · split at h <;> cases h

theorem readTextOf_eq_ok {expected t : String} : readTextOf expected cs = .ok (t, rest) ↔
    readValue d cs = .ok (.text t, rest) := by
  rw [readValue_eq_text]
  constructor
  · intro h
    unfold readTextOf at h
    split at h
    · rename_i r hblank
      exact ⟨r, hblank, h⟩
    · exact absurd h wrongType_ne_ok
  · rintro ⟨r, hblank, hstring⟩
    simp only [readTextOf, hblank, hstring]

theorem within_eq_ok {read : Nat → List Char → Except Fault (Parsed α)} {v : α} {r : List Char} :
    within d read r = .ok (v, rest) ↔ ∃ e, d = e + 1 ∧ read e r = .ok (v, rest) := by
  cases d with
  | zero => exact ⟨nofun, fun ⟨_, h, _⟩ => nomatch h⟩
  | succ e => simp [within]

theorem finish_eq_ok {x : Except Fault (Parsed α)} {v : α} :
    finish x = .ok v ↔ ∃ r, x = .ok (v, r) ∧ skipBlank r = [] := by
  constructor
  · intro h
    unfold finish at h
    split at h
    · cases h
    · rename_i v' r
      split at h
      · rename_i hblank
        cases h
        exact ⟨r, rfl, hblank⟩
      · cases h
  · rintro ⟨r, rfl, hblank⟩
    simp only [finish, hblank]

end

end WarmCompile.Json
