import Mathlib.Data.List.Induction
import Mathlib.Data.List.Nodup
import Mathlib.Data.List.Sort
import WarmCompile.Table

/-!
Laws of tables: a table is what it holds under each key, and of two entries under one key the later
one stands.
-/

namespace WarmCompile.Table

variable {β : Type} {t u : Table β} {l : List (String × β)} {k : String} {v : β}

theorem find?_eq_some_iff : t.find? k = some v ↔ (k, v) ∈ t.entries := by
  obtain ⟨l, hs⟩ := t
  simp only [find?]
  induction l with
  | nil => simp
  | cons e l ih =>
    obtain ⟨he, hl⟩ := List.pairwise_cons.1 hs
    rw [lookup_cons, List.mem_cons]
    by_cases h : k = e.1
    · have hne : (k, v) ∉ l := fun hm => String.lt_irrefl _ (h ▸ he _ hm)
      rw [if_pos h, or_iff_left hne, Prod.ext_iff]
      simp [h, eq_comm]
    · have hne : (k, v) ≠ e := fun hh => h (congrArg Prod.fst hh)
      rw [if_neg h, ih hl, or_iff_right hne]

theorem mem_keys_iff : k ∈ t.keys ↔ (t.find? k).isSome = true := by
  rw [Option.isSome_iff_exists, keys, List.mem_map]
  constructor
  · rintro ⟨⟨_, v⟩, hmem, rfl⟩
    exact ⟨v, find?_eq_some_iff.2 hmem⟩
  · rintro ⟨v, hfind⟩
    exact ⟨(k, v), find?_eq_some_iff.1 hfind, rfl⟩

theorem nodup_of_sorted (h : l.Pairwise (·.1 < ·.1)) : (l.map (·.1)).Nodup := by
  refine List.pairwise_map.2 (h.imp fun hlt he => ?_)
  exact String.lt_irrefl _ (he ▸ hlt)

theorem nodup_keys (t : Table β) : t.keys.Nodup :=
  nodup_of_sorted t.sorted

theorem ext_find? (h : ∀ k, t.find? k = u.find? k) : t = u := by
  have hm : ∀ e, e ∈ t.entries ↔ e ∈ u.entries := by
    intro ⟨k, v⟩
    rw [← find?_eq_some_iff, ← find?_eq_some_iff, h k]
  have : Std.Irrefl fun a b : String × β => a.1 < b.1 := ⟨fun a => String.lt_irrefl a.1⟩
  have he : t.entries = u.entries := t.sorted.eq_of_mem_iff u.sorted hm
  obtain ⟨l, hs⟩ := t
  cases he
  rfl

def insertAll (t : Table β) (l : List (String × β)) : Table β :=
  l.foldl (fun t e => t.insert e.1 e.2) t

theorem find?_insertAll_of_not_mem (t : Table β) (h : k ∉ l.map (·.1)) :
    (t.insertAll l).find? k = t.find? k := by
  induction l generalizing t with
  | nil => rfl
  | cons e l ih =>
    rw [List.map_cons, List.mem_cons, not_or] at h
    change ((t.insert e.1 e.2).insertAll l).find? k = _
    rw [ih _ h.2, find?_insert, if_neg h.1]

theorem find?_insertAll_of_mem (t : Table β) (h : k ∈ l.map (·.1)) :
    ∃ v, (k, v) ∈ l ∧ (t.insertAll l).find? k = some v := by
  induction l generalizing t with
  | nil => cases h
  | cons e l ih =>
    change ∃ v, _ ∧ ((t.insert e.1 e.2).insertAll l).find? k = some v
    by_cases hl : k ∈ l.map (·.1)
    · obtain ⟨v, hv, hf⟩ := ih (t.insert e.1 e.2) hl
      exact ⟨v, List.mem_cons_of_mem _ hv, hf⟩
    · have he : k = e.1 := (List.mem_cons.1 h).resolve_right hl
      refine ⟨e.2, ?_, ?_⟩
      · rw [he]
        exact List.mem_cons_self
      · rw [find?_insertAll_of_not_mem _ hl, find?_insert, if_pos he]

theorem find?_overlay (t u : Table β) (k : String) :
    (t.overlay u).find? k = (u.find? k).or (t.find? k) := by
  change (t.insertAll u.entries).find? k = _
  by_cases h : k ∈ u.entries.map (·.1)
  · obtain ⟨v, hv, hf⟩ := find?_insertAll_of_mem t h
    rw [hf, find?_eq_some_iff.2 hv, Option.some_or]
  · have hu : u.find? k = none := by
      refine Option.eq_none_iff_forall_ne_some.2 fun v hv => h ?_
      exact List.mem_map_of_mem (find?_eq_some_iff.1 hv)
    rw [find?_insertAll_of_not_mem t h, hu, Option.none_or]

theorem insertAll_entries (t : Table β) : empty.insertAll t.entries = t := by
  refine ext_find? fun k => ?_
  have hoverlay := find?_overlay empty t k
  rw [find?_empty, Option.or_none] at hoverlay
  exact hoverlay

theorem entries_ofList (h : l.Pairwise (·.1 < ·.1)) : (ofList l).entries = l :=
  congrArg entries (insertAll_entries ⟨l, h⟩)

theorem find?_ofList (hkeys : (l.map (·.1)).Nodup) : (ofList l).find? k = some v ↔ (k, v) ∈ l := by
  have hall : ofList l = empty.insertAll l := rfl
  rw [hall]
  by_cases hk : k ∈ l.map (·.1)
  · obtain ⟨u, hu, hfind⟩ := find?_insertAll_of_mem empty hk
    rw [hfind, Option.some.injEq]
    refine ⟨fun he => he ▸ hu, fun hv => ?_⟩
    exact (Prod.mk.inj (List.inj_on_of_nodup_map hkeys hu hv rfl)).2
  · rw [find?_insertAll_of_not_mem empty hk, find?_empty]
    exact ⟨nofun, fun hv => absurd (List.mem_map_of_mem hv) hk⟩

/-- A table made from entries holds under each key what its last entry says. -/
theorem find?_ofList_iff : (ofList l).find? k = some v ↔
    ∃ before after, l = before ++ (k, v) :: after ∧ k ∉ after.map (·.1) := by
  induction l using List.reverseRecOn with
  | nil => exact ⟨nofun, fun ⟨_, _, hl, _⟩ => absurd hl (by simp)⟩
  | append_singleton l e ih =>
    have hinsert : ofList (l ++ [e]) = (ofList l).insert e.1 e.2 := List.foldl_append
    rw [hinsert, find?_insert]
    constructor
    · intro hfind
      split at hfind
      · rename_i hk
        cases hfind
        exact ⟨l, [], by rw [hk], nofun⟩
      · rename_i hk
        obtain ⟨before, after, rfl, hafter⟩ := ih.1 hfind
        refine ⟨before, after ++ [e], by simp, fun hmem => ?_⟩
        rw [List.map_append, List.mem_append] at hmem
        exact hmem.elim hafter fun he => hk (List.mem_singleton.1 he)
    · rintro ⟨before, after, hl, hafter⟩
      rcases List.eq_nil_or_concat' after with rfl | ⟨after, e', rfl⟩
      · obtain ⟨-, he⟩ := List.append_inj' hl rfl
        cases List.singleton_inj.1 he
        exact if_pos rfl
      · rw [← List.cons_append, ← List.append_assoc] at hl
        obtain ⟨rfl, he⟩ := List.append_inj' hl rfl
        cases List.singleton_inj.1 he
        rw [List.map_append, List.mem_append, not_or] at hafter
        rw [if_neg fun hk => hafter.2 (List.mem_singleton.2 hk)]
        exact ih.2 ⟨before, after, rfl, hafter.1⟩

/-- A table made from entries is looked up like the entries, from the last to the first. -/
theorem find?_ofList_eq_lookup (l : List (String × β)) (k : String) :
    (ofList l).find? k = l.reverse.lookup k := by
  induction l using List.reverseRecOn with
  | nil => rfl
  | append_singleton l e ih =>
    have hinsert : ofList (l ++ [e]) = (ofList l).insert e.1 e.2 := List.foldl_append
    rw [hinsert, find?_insert, List.reverse_concat, lookup_cons, ih]

theorem lookup_reverse_entries (t : Table β) (k : String) :
    t.entries.reverse.lookup k = t.find? k := by
  rw [← find?_ofList_eq_lookup]
  exact congrArg (find? · k) (insertAll_entries t)

/-- Where each key stands once, the order of the entries makes no difference. -/
theorem entries_ofList_of_perm {l' : List (String × β)} (h : l.Perm l')
    (hsorted : l'.Pairwise (·.1 < ·.1)) : (ofList l).entries = l' := by
  have hkeys' := nodup_of_sorted hsorted
  have hkeys := (h.map (·.1)).nodup_iff.2 hkeys'
  have hsame : ofList l = ofList l' := by
    refine ext_find? fun k => Option.ext fun v => ?_
    rw [find?_ofList hkeys, find?_ofList hkeys', h.mem_iff]
  rw [hsame, entries_ofList hsorted]

theorem ofList_of_perm (h : l.Perm t.entries) : ofList l = t := by
  obtain ⟨entries, hsorted⟩ := t
  have hentries := entries_ofList_of_perm h hsorted
  generalize ofList l = u at hentries
  cases hentries
  rfl

/-- The entries under some of the keys. -/
def restrict (t : Table β) (kept : String → Bool) : Table β :=
  ⟨t.entries.filter fun e => kept e.1, t.sorted.filter _⟩

theorem restrict_true (t : Table β) : t.restrict (fun _ => true) = t := by
  obtain ⟨entries, hsorted⟩ := t
  simp only [restrict, List.filter_true]

end WarmCompile.Table
