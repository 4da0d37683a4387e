import Mathlib.Logic.Relation
import WarmCompile.Proofs.Path.Join

/-!
Canonical paths: what the text of a folded path looks like, and which changes to the text of a path
make no difference to the folded one.
-/

namespace WarmCompile.Path

/-! ### The text of a folded path -/

/-- What stands behind the root in an absolute path, and all of a relative one. -/
def body (text : List Char) : List Char :=
  if isAbsolute text then text.tail else text

/-- What a path is made of: the pieces between its slashes. There are none where nothing stands
behind the root. -/
def pieces (text : List Char) : List (List Char) :=
  if body text = [] then [] else (body text).splitOn '/'

/-- The text of a path in its one form. -/
structure Canonical (s : String) : Prop where
  backslash : '\\' ∉ s.toList
  named : ∀ piece ∈ pieces s.toList, piece ≠ [] ∧ piece ≠ ['.']
  closed : s.toList.getLast? = some '/' → s = "/"
  /-- Each `..` climbs out of a relative path, ahead of all names. -/
  climbs : ∃ n names, pieces s.toList = List.replicate n ['.', '.'] ++ names ∧
    ['.', '.'] ∉ names ∧ (isAbsolute s.toList = true → n = 0)

theorem isAbsolute_iff {text : List Char} : isAbsolute text = true ↔ ∃ rest, text = '/' :: rest := by
  rw [isAbsolute, beq_iff_eq]
  exact List.head?_eq_some_iff

theorem isAbsolute_toText {p : Path} (hp : p.Proper) : isAbsolute p.toText = p.rooted := by
  have hsegments := segments_of_proper hp
  cases hrooted : p.rooted with
  | true =>
    rw [toText, if_pos hrooted]
    rfl
  | false =>
    rw [toText, if_neg (by simp [hrooted])]
    apply isAbsolute_intercalate
    intro s hs
    exact ⟨(hsegments s hs).1, (hsegments s hs).2.1⟩

theorem pieces_toText {p : Path} (hp : p.Proper) : pieces p.toText = p.segments := by
  have hsegments := segments_of_proper hp
  have hbody : body p.toText = ['/'].intercalate p.segments := by
    rw [body, isAbsolute_toText hp, toText]
    cases p.rooted <;> rfl
  rw [pieces, hbody]
  cases hcases : p.segments with
  | nil => rfl
  | cons first rest =>
    rw [hcases] at hsegments
    have hjoined : ['/'].intercalate (first :: rest) ≠ [] := by
      obtain ⟨c, cs, rfl⟩ := List.exists_cons_of_ne_nil (hsegments first List.mem_cons_self).1
      rw [List.intercalate_cons_cons_left]
      exact List.cons_ne_nil c _
    rw [if_neg hjoined]
    apply List.splitOn_intercalate
    · intro s hs
      exact (hsegments s hs).2.1
    · exact List.cons_ne_nil first rest

/-- A path whose text ends with a slash has an empty piece, unless it is the root. -/
theorem eq_root_of_getLast {text : List Char} (hpieces : [] ∉ pieces text)
    (hlast : text.getLast? = some '/') : text = ['/'] := by
  obtain ⟨front, rfl⟩ := List.getLast?_eq_some_iff.1 hlast
  cases front with
  | nil => rfl
  | cons c front =>
    apply absurd _ hpieces
    have hbody : ∃ before, body (c :: front ++ ['/']) = before ++ ['/'] := by
      unfold body
      split
      · exact ⟨front, rfl⟩
      · exact ⟨c :: front, rfl⟩
    obtain ⟨before, hbody⟩ := hbody
    rw [pieces, hbody, if_neg (by simp), List.splitOn_append_cons_of_beq _ _ (beq_self_eq_true _)]
    exact List.mem_append_right _ List.mem_cons_self

theorem Folded.canonical {s : String} (h : Folded s) : Canonical s := by
  have hback := h.not_mem
  obtain ⟨p, hp, rfl⟩ := h
  have hpieces : pieces (String.ofList p.toText).toList = p.segments := by
    rw [String.toList_ofList, pieces_toText hp]
  have hnamed : ∀ piece ∈ p.segments, piece ≠ [] ∧ piece ≠ ['.'] := by
    intro piece hpiece
    rcases List.mem_append.1 hpiece with hdots | hname
    · rw [List.eq_of_mem_replicate hdots]
      decide
    · exact ⟨(hp.names piece hname).ne_nil, (hp.names piece hname).ne_dot⟩
  constructor
  case backslash => exact hback
  case named => exact hpieces ▸ hnamed
  case closed =>
    intro hlast
    have hroot := eq_root_of_getLast (fun h => (hnamed [] (hpieces ▸ h)).1 rfl) hlast
    exact String.toList_inj.1 hroot
  case climbs =>
    refine ⟨p.climbs, p.names, hpieces, ?_, ?_⟩
    · intro hdots
      exact (hp.names _ hdots).ne_dots rfl
    · intro habsolute
      rw [String.toList_ofList, isAbsolute_toText hp] at habsolute
      exact hp.level habsolute

theorem intercalate_pieces (text : List Char) : ['/'].intercalate (pieces text) = body text := by
  unfold pieces
  split
  · rename_i hnone
    exact hnone.symm
  · exact List.intercalate_splitOn '/'

theorem cons_body {text : List Char} (h : isAbsolute text = true) : '/' :: body text = text := by
  obtain ⟨rest, rfl⟩ := isAbsolute_iff.1 h
  rfl

theorem of_mem_pieces {text piece : List Char} {c : Char} (hpiece : piece ∈ pieces text)
    (hc : c ∈ piece) : c ∈ text ∧ c ≠ '/' := by
  unfold pieces at hpiece
  split at hpiece
  · exact absurd hpiece List.not_mem_nil
  · obtain ⟨hmem, hslash⟩ := of_mem_splitOn hpiece hc
    refine ⟨?_, hslash⟩
    unfold body at hmem
    split at hmem
    · exact List.mem_of_mem_tail hmem
    · exact hmem

theorem Canonical.folded {s : String} (h : Canonical s) : Folded s := by
  obtain ⟨n, names, hpieces, hdots, hlevel⟩ := h.climbs
  have hproper : Proper ⟨isAbsolute s.toList, n, names⟩ := by
    refine ⟨hlevel, ?_⟩
    intro name hname
    have hpiece : name ∈ pieces s.toList := hpieces ▸ List.mem_append_right _ hname
    obtain ⟨hnil, hdot⟩ := h.named name hpiece
    constructor
    case ne_nil => exact hnil
    case ne_dot => exact hdot
    case ne_dots =>
      rintro rfl
      exact hdots hname
    case slash => exact fun hslash => (of_mem_pieces hpiece hslash).2 rfl
    case backslash => exact fun hback => h.backslash (of_mem_pieces hpiece hback).1
  have htext : toText ⟨isAbsolute s.toList, n, names⟩ = s.toList := by
    have hsegments : segments ⟨isAbsolute s.toList, n, names⟩ = pieces s.toList := hpieces.symm
    rw [toText, hsegments, intercalate_pieces]
    split
    · rename_i habsolute
      exact cons_body habsolute
    · rename_i hrelative
      exact if_neg hrelative
  exact ⟨_, hproper, (congrArg String.ofList htext).trans String.ofList_toList |>.symm⟩

/-- Folding leaves a path alone if and only if its text is in the one form. -/
theorem canonical_iff {s : String} : Canonical s ↔ normalize s = s :=
  ⟨fun h => h.folded.normalize_eq, fun h => (folded_iff.2 h).canonical⟩

/-! ### Absolute paths stay absolute -/

theorem rooted_child (p : Path) (segment : List Char) : (p.child segment).rooted = p.rooted := by
  unfold child
  repeat' split
  all_goals rfl

theorem rooted_descend (p : Path) (text : List Char) : (p.descend text).rooted = p.rooted := by
  unfold descend
  induction text.splitOn '/' generalizing p with
  | nil => rfl
  | cons segment segments ih => rw [List.foldl_cons, ih, rooted_child]

theorem toList_normalize (s : String) :
    (normalize s).toList = (ofText (forward s).toList).toText := by
  have hproper := proper_ofText (not_mem_forward s)
  rw [normalize_eq, forward_of_not_mem, String.toList_ofList]
  rw [String.toList_ofList]
  exact not_mem_toText hproper

theorem isAbsolute_normalize (s : String) :
    isAbsolute (normalize s).toList = isAbsolute (forward s).toList := by
  rw [toList_normalize, isAbsolute_toText (proper_ofText (not_mem_forward s)), ofText,
    rooted_descend]

/-! ### Respelled paths -/

/-- Both kinds of slashes lie between segments. -/
def isSlash (c : Char) : Bool :=
  c == '/' || c == '\\'

/-- Between the two texts a segment begins that is not empty. -/
def BeginsSegment (before after : List Char) : Prop :=
  before.getLast?.all isSlash ∧ after.head?.any (!isSlash ·)

instance (before after : List Char) : Decidable (BeginsSegment before after) :=
  inferInstanceAs (Decidable (_ ∧ _))

/-- A change to the text of a path that does not change what it means. -/
inductive Respelled : List Char → List Char → Prop where
  | dot (before after : List Char) (hsegment : BeginsSegment before after) :
    Respelled (before ++ after) (before ++ (['.'] ++ '/' :: after))
  | detour (before after : List Char) {name : List Char} (hname : IsName name)
    (hsegment : BeginsSegment before after) :
    Respelled (before ++ after) (before ++ (name ++ '/' :: ['.', '.'] ++ '/' :: after))
  | doubled {c : Char} (before after : List Char) (hslash : isSlash c = true) :
    Respelled (before ++ c :: after) (before ++ c :: c :: after)
  | closed {text : List Char} (hne : text ≠ []) : Respelled text (text ++ ['/'])
  | turned (before after : List Char) :
    Respelled (before ++ '/' :: after) (before ++ '\\' :: after)

/-- A text with its backslashes read as slashes. -/
def forwardText (text : List Char) : List Char :=
  text.map fun c => if c = '\\' then '/' else c

theorem toList_forward (s : String) : (forward s).toList = forwardText s.toList :=
  String.toList_ofList

theorem forwardText_append (x y : List Char) :
    forwardText (x ++ y) = forwardText x ++ forwardText y :=
  List.map_append

theorem forwardText_of_not_mem {text : List Char} (h : '\\' ∉ text) : forwardText text = text := by
  have hforward : forward (String.ofList text) = String.ofList text :=
    forward_of_not_mem (by rwa [String.toList_ofList])
  have hlist := congrArg String.toList hforward
  rwa [toList_forward, String.toList_ofList] at hlist

theorem isSlash_iff {c : Char} : isSlash c = true ↔ (if c = '\\' then '/' else c) = '/' := by
  unfold isSlash
  split <;> simp_all

theorem forwardText_slash {c : Char} (h : isSlash c = true) (text : List Char) :
    forwardText (c :: text) = '/' :: forwardText text := by
  rw [forwardText, List.map_cons, isSlash_iff.1 h]
  rfl

/-- With its backslashes turned, the text ahead of a segment ends with a slash, and the text that
the segment begins is relative. -/
theorem BeginsSegment.forward {before after : List Char} (h : BeginsSegment before after) :
    (forwardText before = [] ∨ ∃ front, forwardText before = front ++ ['/']) ∧
      isAbsolute (forwardText after) = false := by
  obtain ⟨hbefore, hafter⟩ := h
  constructor
  · rcases List.eq_nil_or_concat' before with rfl | ⟨front, c, rfl⟩
    · exact .inl rfl
    · rw [List.getLast?_concat, Option.all_some] at hbefore
      right
      exact ⟨forwardText front, by rw [forwardText_append, forwardText_slash hbefore]; rfl⟩
  · cases after with
    | nil => rfl
    | cons c after =>
      rw [List.head?_cons, Option.any_some, Bool.not_eq_true', Bool.eq_false_iff, ne_eq,
        isSlash_iff] at hafter
      exact beq_false_of_ne fun hslash => hafter (Option.some.inj hslash)

/-- What leads back to where it begins may stand ahead of any segment. -/
theorem ofText_insert {before after detour : List Char}
    (hbefore : before = [] ∨ ∃ front, before = front ++ ['/'])
    (hafter : isAbsolute after = false) (hne : detour ≠ []) (hdetour : isAbsolute detour = false)
    (hback : ∀ p : Path, p.descend detour = p) :
    ofText (before ++ (detour ++ '/' :: after)) = ofText (before ++ after) := by
  obtain rfl | ⟨front, rfl⟩ := hbefore
  · have hrelative : isAbsolute (detour ++ '/' :: after) = false := by
      obtain ⟨c, cs, rfl⟩ := List.exists_cons_of_ne_nil hne
      exact hdetour
    rw [List.nil_append, List.nil_append, ofText, ofText, hrelative, hafter, descend_append, hback]
  · rw [List.append_assoc, List.append_assoc]
    change ofText (front ++ '/' :: (detour ++ '/' :: after)) = ofText (front ++ '/' :: after)
    rw [ofText_append front (detour ++ '/' :: after), ofText_append front after, descend_append, hback]

theorem child_name {name : List Char} (h : IsName name) (p : Path) :
    p.child name = { p with names := p.names ++ [name] } := by
  simp [child, h.ne_nil, h.ne_dot, h.ne_dots]

theorem descend_segment (p : Path) {segment : List Char} (h : '/' ∉ segment) :
    p.descend segment = p.child segment := by
  rw [descend, List.splitOn_eq_singleton h]
  rfl

/-- Into a directory and out of it again. -/
theorem descend_detour {name : List Char} (h : IsName name) (p : Path) :
    p.descend (name ++ '/' :: ['.', '.']) = p := by
  rw [descend_append, descend_segment p h.slash, descend_segment _ (by decide), child_name h]
  simp [child]

/-- A slash at the end of a path makes no difference to it. -/
theorem ofText_closed {text : List Char} (hne : text ≠ []) : ofText (text ++ ['/']) = ofText text := by
  have habsolute : isAbsolute (text ++ ['/']) = isAbsolute text := by
    obtain ⟨c, cs, rfl⟩ := List.exists_cons_of_ne_nil hne
    rfl
  rw [ofText, ofText, habsolute, descend_append, descend_nil]

theorem Respelled.ofText_eq {text text' : List Char} (h : Respelled text text') :
    ofText (forwardText text') = ofText (forwardText text) := by
  cases h with
  | dot before after hsegment =>
    obtain ⟨hbefore, hafter⟩ := hsegment.forward
    have hstays : ∀ p : Path, p.descend ['.'] = p := fun p => descend_segment p (by decide)
    rw [forwardText_append before after, forwardText_append before]
    exact ofText_insert hbefore hafter (List.cons_ne_nil _ _) rfl hstays
  | @detour before after name hname hsegment =>
    obtain ⟨hbefore, hafter⟩ := hsegment.forward
    have hkept : forwardText name = name := forwardText_of_not_mem hname.backslash
    have hrelative : isAbsolute (name ++ '/' :: ['.', '.']) = false := by
      obtain ⟨c, cs, rfl⟩ := List.exists_cons_of_ne_nil hname.ne_nil
      exact beq_false_of_ne fun hslash => hname.slash (Option.some.inj hslash ▸ List.mem_cons_self)
    have hdetour : forwardText (name ++ '/' :: ['.', '.'] ++ '/' :: after) =
        name ++ '/' :: ['.', '.'] ++ '/' :: forwardText after := by
      rw [forwardText_append, forwardText_append, hkept]
      rfl
    rw [forwardText_append before after, forwardText_append before, hdetour]
    exact ofText_insert hbefore hafter (by simp) hrelative (descend_detour hname)
  | @doubled c before after hslash =>
    have htwice : ofText (forwardText before ++ '/' :: '/' :: forwardText after) =
        ((ofText (forwardText before ++ ['/'])).descend []).descend (forwardText after) := by
      rw [ofText_append]
      exact descend_append _ [] (forwardText after)
    rw [forwardText_append, forwardText_append, forwardText_slash hslash, forwardText_slash hslash,
      htwice, descend_nil, ofText_append (forwardText before) (forwardText after)]
  | closed hne =>
    rw [forwardText_append]
    exact ofText_closed fun hnil => hne (List.map_eq_nil_iff.1 hnil)
  | turned before after =>
    rw [forwardText_append, forwardText_append]
    rfl

theorem normalize_of_respelled {s s' : String}
    (h : Relation.EqvGen Respelled s.toList s'.toList) : normalize s' = normalize s := by
  have hsame : ∀ {text text' : List Char}, Relation.EqvGen Respelled text text' →
      ofText (forwardText text') = ofText (forwardText text) := by
    intro text text' h
    induction h with
    | rel text text' h => exact h.ofText_eq
    | refl text => rfl
    | symm text text' h ih => exact ih.symm
    | trans text text' text'' h h' ih ih' => exact ih'.trans ih
  apply String.toList_inj.1
  rw [toList_normalize, toList_normalize, toList_forward, toList_forward, hsame h]

/-- Folding brings a path to its one form: the form of a folded path, which it leaves alone, the
same for all ways to spell it. -/
theorem normalize_canonical (s : String) :
    Canonical (normalize s) ∧
    (isAbsolute (normalize s).toList = true ↔ isAbsolute (forward s).toList = true) ∧
    normalize (normalize s) = normalize s ∧
    ∀ s', Relation.EqvGen Respelled s.toList s'.toList → normalize s' = normalize s := by
  have hfolded := folded_normalize s
  constructor
  · exact hfolded.canonical
  · constructor
    · rw [isAbsolute_normalize]
    · constructor
      · exact hfolded.normalize_eq
      · intro s' h
        exact normalize_of_respelled h

/-- One path, written straight and in a roundabout way. -/
theorem normalize_canonical_roundabout :
    Relation.EqvGen Respelled "../src/A.fs".toList "..\\x/../src//./A.fs/".toList ∧
    Canonical "../src/A.fs" ∧ normalize "..\\x/../src//./A.fs/" = "../src/A.fs" := by
  have hturned : Respelled "../src/A.fs".toList "..\\src/A.fs".toList :=
    .turned "..".toList "src/A.fs".toList
  have hdetour : Respelled "..\\src/A.fs".toList "..\\x/../src/A.fs".toList :=
    .detour "..\\".toList "src/A.fs".toList
      (⟨by decide, by decide, by decide, by decide, by decide⟩ : IsName ['x']) (by decide)
  have hdoubled : Respelled "..\\x/../src/A.fs".toList "..\\x/../src//A.fs".toList :=
    .doubled "..\\x/../src".toList "A.fs".toList (by decide)
  have hdot : Respelled "..\\x/../src//A.fs".toList "..\\x/../src//./A.fs".toList :=
    .dot "..\\x/../src//".toList "A.fs".toList (by decide)
  have hclosed : Respelled "..\\x/../src//./A.fs".toList "..\\x/../src//./A.fs/".toList :=
    .closed (by decide)
  have hspelled : Relation.EqvGen Respelled "../src/A.fs".toList "..\\x/../src//./A.fs/".toList :=
    (Relation.EqvGen.rel _ _ hturned).trans _ _ _ <| (Relation.EqvGen.rel _ _ hdetour).trans _ _ _ <|
      (Relation.EqvGen.rel _ _ hdoubled).trans _ _ _ <| (Relation.EqvGen.rel _ _ hdot).trans _ _ _ <|
      .rel _ _ hclosed
  have hstraight : normalize "../src/A.fs" = "../src/A.fs" := by decide +kernel
  obtain ⟨hcanonical, -, -, hsame⟩ := normalize_canonical "../src/A.fs"
  rw [hstraight] at hcanonical hsame
  exact ⟨hspelled, hcanonical, hsame _ hspelled⟩

end WarmCompile.Path
