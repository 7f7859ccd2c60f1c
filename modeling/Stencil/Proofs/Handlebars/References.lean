import Stencil.Proofs.Text
import Stencil.Scope

/-!
# References in normal form

The text of a reference is made of segments between slashes, and a segment of
names between dots. Two dots are a hop, and the names that are not empty are the
members, from the first on that is not the word for the current value. The
members with dots between them are the reference without its hops. Read again
they are the same members, unless they begin with an at sign, and at the root
they stand for themselves.
-/

namespace Stencil.Handlebars.Path

/-- A name that can be a member: it is not empty, and nothing in it would split it. -/
structure IsMember (part : String) : Prop where
  ne_empty : part ≠ ""
  dot : '.' ∉ part.toList
  slash : '/' ∉ part.toList

/-- The names of the segments that make up a text. -/
structure Spells (segments : List (List (List Char))) (s : List Char) : Prop where
  text : ['/'].intercalate (segments.map ['.'].intercalate) = s
  ne_nil : segments ≠ []
  named : ∀ segment ∈ segments, segment ≠ []
  apart : ∀ segment ∈ segments, ∀ name ∈ segment, '.' ∉ name ∧ '/' ∉ name

/-- The members of a reference, read again, are the same reference without its hops, and at the
root both stand for these members. -/
structure Rereads (path : Path) : Prop where
  parts : (parse path.joined).parts = path.parts
  depth : (parse path.joined).depth = 0
  data : (parse path.joined).data = false
  root : ∀ scopes : List Scope, scopes.length = path.depth →
    Scopes.resolve scopes path = ⟨path.joined, none⟩
  again : Scopes.resolve [] (parse path.joined) = ⟨path.joined, none⟩

theorem map_intercalate_fields (segments : List (List Char)) :
    (segments.map (Text.fields '.')).map ['.'].intercalate = segments := by
  rw [List.map_map]
  apply List.map_id''
  exact fun segment => Text.intercalate_fields '.' segment

/-- Every text has segments and names. -/
theorem spells_fields (s : List Char) :
    Spells ((Text.fields '/' s).map (Text.fields '.')) s where
  text := by
    rw [map_intercalate_fields, Text.intercalate_fields]
  ne_nil := by
    simp [Text.fields_ne_nil]
  named := by
    intro segment hsegment
    obtain ⟨field, hfield, rfl⟩ := List.mem_map.mp hsegment
    exact Text.fields_ne_nil '.' field
  apart := by
    intro segment hsegment name hname
    obtain ⟨field, hfield, rfl⟩ := List.mem_map.mp hsegment
    refine ⟨Text.not_mem_of_mem_fields hname, fun hslash => ?_⟩
    exact Text.not_mem_of_mem_fields hfield ((Text.infix_of_mem_fields hname).subset hslash)

theorem depth_ofText (s : List Char) : (ofText s).depth = (segments s).count ['.', '.'] := by
  rw [ofText, List.count_eq_countP]
  exact List.countP_congr fun segment _ => by simp

theorem parts_ofText (s : List Char) :
    (ofText s).parts =
      ((((segments s).map (Text.fields '.')).flatten.filter (· ≠ [])).map
        String.ofList).dropWhile (· = "this") := by
  rw [ofText, List.filter_flatten, List.map_flatten, List.map_map, List.map_map]
  rfl

theorem data_ofText (s : List Char) : (ofText s).data = decide (s.head? = some '@') := rfl

/-- Whatever is read as a member can be one. -/
theorem isMember_of_mem_parts {s : List Char} {part : String} (h : part ∈ (ofText s).parts) :
    IsMember part := by
  rw [parts_ofText] at h
  obtain ⟨name, hname, rfl⟩ := List.mem_map.mp ((List.dropWhile_suffix _).subset h)
  obtain ⟨hin, hne⟩ := List.mem_filter.mp hname
  obtain ⟨segment, hsegment, hmem⟩ := List.mem_flatten.mp hin
  obtain ⟨hdot, hslash⟩ := (spells_fields (withoutSign s)).apart segment hsegment name hmem
  exact ⟨by simpa using hne, by simpa using hdot, by simpa using hslash⟩

theorem head?_parts_ne_this (s : List Char) : (ofText s).parts.head? ≠ some "this" := by
  have hfirst := List.head?_dropWhile_not (· = "this") ((segments s).flatMap names)
  intro hthis
  rw [ofText] at hthis
  rw [hthis] at hfirst
  exact absurd rfl (of_decide_eq_false hfirst)

theorem head?_joined {first : String} (h : IsMember first) (rest : List String) :
    (".".intercalate (first :: rest)).toList.head? = first.toList.head? := by
  have hne : first.toList ≠ [] := by
    intro hnil
    exact h.ne_empty (String.toList_eq_nil_iff.mp hnil)
  obtain ⟨c, s, hs⟩ := List.exists_cons_of_ne_nil hne
  rw [String.toList_intercalate, List.map_cons, hs]
  cases rest <;> rfl

theorem names_joined {parts : List String} (h : ∀ part ∈ parts, IsMember part) :
    names (".".intercalate parts).toList = parts := by
  cases parts with
  | nil => rfl
  | cons first rest =>
    have hlist : (".".intercalate (first :: rest)).toList =
        ['.'].intercalate ((first :: rest).map String.toList) := String.toList_intercalate
    have hdots : ∀ field ∈ (first :: rest).map String.toList, '.' ∉ field := by
      intro field hfield
      obtain ⟨part, hpart, rfl⟩ := List.mem_map.mp hfield
      exact (h part hpart).dot
    have hfilled : ∀ field ∈ (first :: rest).map String.toList, decide (field ≠ []) = true := by
      intro field hfield
      obtain ⟨part, hpart, rfl⟩ := List.mem_map.mp hfield
      simpa using (h part hpart).ne_empty
    rw [names, hlist, Text.fields_intercalate (by simp) hdots, List.filter_eq_self.mpr hfilled,
      List.map_map]
    apply List.map_id''
    exact fun part => String.ofList_toList

/-- Members with dots between them are read as these members, if the first is neither the word for
the current value nor begins with an at sign. -/
theorem parse_joined {path : Path} (h : ∀ part ∈ path.parts, IsMember part)
    (hthis : path.parts.head? ≠ some "this")
    (hsign : ∀ first ∈ path.parts.head?, first.toList.head? ≠ some '@') :
    (parse path.joined).parts = path.parts ∧ (parse path.joined).depth = 0 ∧
      (parse path.joined).data = false := by
  have hnames := names_joined h
  have hslash : '/' ∉ path.joined.toList := by
    intro hmem
    obtain hdot | ⟨part, hpart, hin⟩ := Text.mem_intercalate hmem
    · exact absurd hdot (by decide)
    · exact (h part hpart).slash hin
  have hfirst : path.joined.toList.head? ≠ some '@' := by
    rw [joined]
    cases hparts : path.parts with
    | nil => simp
    | cons first rest =>
      rw [head?_joined (h first (by simp [hparts]))]
      exact hsign first (by simp [hparts])
  have hsegments : segments path.joined.toList = [path.joined.toList] := by
    rw [segments, withoutSign_of_head? hfirst, Text.fields_of_not_mem hslash]
  refine ⟨?_, ?_, ?_⟩
  · have hread : (parse path.joined).parts = path.parts.dropWhile (· = "this") := by
      change ((segments path.joined.toList).flatMap names).dropWhile _ = _
      rw [hsegments, List.flatMap_singleton, joined, hnames]
    rw [hread]
    cases hparts : path.parts with
    | nil => rfl
    | cons first rest =>
      apply List.dropWhile_cons_of_neg
      simpa [hparts] using hthis
  · rw [parse, depth_ofText, hsegments, List.count_eq_zero, List.mem_singleton]
    -- Two dots are a segment without names.
    intro hdots
    have hnone : path.parts = [] := by
      rw [← hnames, ← joined, ← hdots]
      rfl
    rw [joined, hnone] at hdots
    exact absurd hdots (by decide)
  · rw [parse, data_ofText, decide_eq_false hfirst]

theorem rereads_iff {path : Path} (h : ∀ part ∈ path.parts, IsMember part)
    (hthis : path.parts.head? ≠ some "this") :
    path.Rereads ↔ ∀ first ∈ path.parts.head?, first.toList.head? ≠ some '@' := by
  constructor
  · intro hrereads first hfirst hsign
    obtain ⟨rest, hparts⟩ := List.head?_eq_some_iff.mp hfirst
    have hdata := hrereads.data
    rw [parse, data_ofText, joined, hparts, head?_joined (h first (by simp [hparts])),
      decide_eq_false_iff_not] at hdata
    exact hdata hsign
  · intro hsign
    obtain ⟨hparts, hdepth, hdata⟩ := parse_joined h hthis hsign
    refine ⟨hparts, hdepth, hdata, fun scopes hlength => ?_, ?_⟩
    · have hroot : scopes.drop path.depth = [] := List.drop_eq_nil_of_le (Nat.le_of_eq hlength)
      rw [Scopes.resolve, if_neg (by omega), hroot]
    · have hjoined : (parse path.joined).joined = path.joined := by
        rw [joined, hparts, ← joined]
      rw [Scopes.resolve, hdepth, hjoined]
      rfl

/-- What is read from a text is made of its segments and names, and it is in normal form. It is
read again from its members exactly if the first of them does not begin with an at sign. -/
theorem parse_normalises (s : String) :
    (∃ segments, Spells segments (withoutSign s.toList) ∧
      (parse s).depth = (segments.map ['.'].intercalate).count ['.', '.'] ∧
      (parse s).parts =
        ((segments.flatten.filter (· ≠ [])).map String.ofList).dropWhile (· = "this")) ∧
    (∀ part ∈ (parse s).parts, IsMember part) ∧ (parse s).parts.head? ≠ some "this" ∧
    ((parse s).Rereads ↔ ∀ first ∈ (parse s).parts.head?, first.toList.head? ≠ some '@') := by
  have hmembers : ∀ part ∈ (parse s).parts, IsMember part := fun _ => isMember_of_mem_parts
  have hthis := head?_parts_ne_this s.toList
  refine ⟨⟨_, spells_fields _, ?_, parts_ofText s.toList⟩, hmembers, hthis,
    rereads_iff hmembers hthis⟩
  rw [map_intercalate_fields]
  exact depth_ofText s.toList

/-- The word for the current value is a member behind another one. An at sign that begins the first
member is taken for one that begins the reference. -/
example : (parse "@../this/a..this").parts = ["a", "this"] ∧ (parse "./@key").data = false ∧
    (parse (parse "./@key").joined).data = true := by
  decide

end Stencil.Handlebars.Path
