import Stencil.Disk.Convert
import Stencil.Proofs.Disk.Pathname

/-!
# Paths below a directory

Behind the path of a directory, names follow a slash. What lies below a root is
found again when the root is taken off its path, whatever way the root is
spelled, so a template keeps its place when it moves from one directory to
another, and its name apart from the extension.
-/

namespace Stencil.Disk

namespace Pathname

/-- A directory's path with the slash that names follow. -/
def opened (d : Pathname) : Pathname :=
  if d = [] || d.getLast? = some '/' then d else d ++ ['/']

/-- The segments of a directory's path before the names that follow. -/
def front (d : Pathname) : List (List Char) :=
  (Text.fields '/' (opened d)).dropLast

theorem under_eq_append {d p : Pathname} (h : p.head? ≠ some '/') : under d p = opened d ++ p := by
  rw [under, opened, if_neg h]
  split
  · rfl
  · rw [List.append_assoc, List.singleton_append]

theorem head?_join_ne {segments : List (List Char)}
    (h : ∀ segment ∈ segments.head?, segment ≠ [] ∧ '/' ∉ segment) :
    (join segments).head? ≠ some '/' := by
  cases segments with
  | nil => simp [join]
  | cons first rest =>
    obtain ⟨hne, hslash⟩ := h first rfl
    obtain ⟨c, s, rfl⟩ := List.exists_cons_of_ne_nil hne
    have hhead : (join ((c :: s) :: rest)).head? = some c := by cases rest <;> rfl
    rw [hhead, ne_eq, Option.some.injEq]
    rintro rfl
    exact hslash List.mem_cons_self

theorem opened_append {name : List Char} (h : IsName name) (p : Pathname) :
    opened (p ++ name) = p ++ name ++ ['/'] := by
  have hlast : name.getLast? ≠ some '/' :=
    fun hlast => h.slash (List.mem_of_getLast? hlast)
  rw [opened, if_neg]
  simp [h.ne_nil, hlast]

theorem join_cons_cons (first second : List Char) (rest : List (List Char)) :
    join (first :: second :: rest) = first ++ '/' :: join (second :: rest) := rfl

theorem opened_eq (d : Pathname) : d = [] ∧ opened d = [] ∨ ∃ s, opened d = s ++ ['/'] := by
  unfold opened
  split
  · next h =>
    rw [Bool.or_eq_true, decide_eq_true_iff, decide_eq_true_iff] at h
    refine h.imp (fun h => ⟨h, h⟩) fun h => ?_
    obtain ⟨s, hs⟩ := List.getLast?_eq_some_iff.mp h
    exact ⟨s, hs⟩
  · exact .inr ⟨d, rfl⟩

theorem fields_opened_append (d p : Pathname) :
    Text.fields '/' (opened d ++ p) = front d ++ Text.fields '/' p := by
  rw [front]
  obtain ⟨-, hopened⟩ | ⟨s, hopened⟩ := opened_eq d
  · rw [hopened]
    rfl
  · rw [hopened, List.append_assoc, List.singleton_append, Text.fields_append, Text.fields_append,
      Text.fields, List.dropLast_concat]

theorem split_append_slash {d : Pathname} (h : d ≠ []) (p : Pathname) :
    split (d ++ '/' :: p) = ((split d).1, (split d).2 ++ Text.fields '/' p) := by
  obtain ⟨c, d, rfl⟩ := List.exists_cons_of_ne_nil h
  by_cases hroot : c = '/'
  · subst hroot
    simp only [List.cons_append, split, Text.fields_append]
  · by_cases hdot : c = '.'
    · subst hdot
      cases d with
      | nil => rfl
      | cons e d =>
        by_cases hslash : e = '/'
        · subst hslash
          simp only [List.cons_append, split, ← Text.fields_append]
        · simp [split, hslash, ← Text.fields_append]
    · simp [split, hroot, hdot, ← Text.fields_append]

/-- A path below a directory begins as the directory's path does. -/
theorem exists_split_opened {d : Pathname} (h : d ≠ []) :
    ∃ segments, segments.filterMap component? = (split d).2.filterMap component? ∧
      ∀ p, split (opened d ++ p) = ((split d).1, segments ++ Text.fields '/' p) := by
  by_cases hslash : d.getLast? = some '/'
  · obtain ⟨e, rfl⟩ := List.getLast?_eq_some_iff.mp hslash
    have hopened : opened (e ++ ['/']) = e ++ ['/'] := if_pos (by simp)
    rw [hopened]
    by_cases he : e = []
    · subst he
      exact ⟨[], rfl, fun _ => rfl⟩
    · refine ⟨(split e).2, ?_, fun p => ?_⟩
      · rw [split_append_slash he, List.filterMap_append, Text.fields]
        exact (List.append_nil _).symm
      · rw [List.append_assoc, List.singleton_append, split_append_slash he,
          split_append_slash he]
  · have hopened : opened d = d ++ ['/'] := if_neg (by simp [h, hslash])
    refine ⟨(split d).2, rfl, fun p => ?_⟩
    rw [hopened, List.append_assoc, List.singleton_append, split_append_slash h]

theorem component?_eq_none_iff {segment : List Char} :
    component? segment = none ↔ isSkipped segment = true := by
  unfold component?
  split
  · next h => simp [h]
  · next h => split <;> simp [h]

theorem component?_ne_lead {segment : List Char} {c : Component} (h : component? segment = some c) :
    c ≠ .root ∧ c ≠ .here := by
  unfold component? at h
  split at h
  · cases h
  · split at h <;> cases h <;> simp

/-- Only the empty path has no components. -/
theorem components_ne_nil {d : Pathname} (h : d ≠ []) : components d ≠ [] := by
  obtain ⟨c, s, rfl⟩ := List.exists_cons_of_ne_nil h
  obtain ⟨field, more, hfields⟩ := List.exists_cons_of_ne_nil (Text.fields_ne_nil '/' s)
  -- Where the lead has no component, the first segment has one.
  have hplain (hroot : c ≠ '/') (hsplit : split (c :: s) = (.plain, Text.fields '/' (c :: s)))
      (hfield : c = '.' → field ≠ []) : components (c :: s) ≠ [] := by
    intro hnone
    have hfirst : Text.fields '/' (c :: s) = (c :: field) :: more := by
      rw [Text.fields, if_neg hroot, hfields]
    rw [components, hsplit, hfirst, List.append_eq_nil_iff, List.filterMap_eq_nil_iff] at hnone
    have hskipped := component?_eq_none_iff.mp (hnone.2 (c :: field) List.mem_cons_self)
    simp only [isSkipped, List.cons.injEq, reduceCtorEq, decide_false, Bool.false_or,
      decide_eq_true_iff] at hskipped
    exact hfield hskipped.1 hskipped.2
  by_cases hroot : c = '/'
  · subst hroot
    exact List.cons_ne_nil _ _
  · by_cases hdot : c = '.'
    · subst hdot
      cases s with
      | nil => exact List.cons_ne_nil _ _
      | cons e s =>
        by_cases hslash : e = '/'
        · subst hslash
          exact List.cons_ne_nil _ _
        · refine hplain hroot (by simp [split, hslash]) fun _ hnil => ?_
          rw [hnil, Text.fields, if_neg hslash] at hfields
          split at hfields <;> cases hfields
    · exact hplain hroot (by simp [split, hroot, hdot]) fun hc => absurd hc hdot

/-- The segments that stand for a path's components are taken off, up to segments that count for
nothing. -/
theorem exists_stripSegments (segments more : List (List Char)) :
    ∃ skipped, (∀ segment ∈ skipped, isSkipped segment = true) ∧
      stripSegments (segments.filterMap component?) (segments ++ more) =
        some (skipped ++ more) := by
  induction segments with
  | nil => exact ⟨[], by simp, by rw [List.filterMap_nil, stripSegments]⟩
  | cons segment segments ih =>
    obtain ⟨skipped, hskipped, hstrip⟩ := ih
    cases hcomponent : component? segment with
    | none =>
      rw [List.filterMap_cons_none hcomponent]
      cases hrest : segments.filterMap component? with
      | nil =>
        refine ⟨segment :: segments, ?_, by rw [stripSegments]⟩
        rw [List.filterMap_eq_nil_iff] at hrest
        rw [List.forall_mem_cons]
        exact ⟨component?_eq_none_iff.mp hcomponent, fun other hother =>
          component?_eq_none_iff.mp (hrest other hother)⟩
      | cons c components =>
        rw [hrest] at hstrip
        refine ⟨skipped, hskipped, ?_⟩
        rw [List.cons_append, stripSegments, hcomponent]
        exact hstrip
    | some c =>
      refine ⟨skipped, hskipped, ?_⟩
      rw [List.filterMap_cons_some hcomponent, List.cons_append, stripSegments, hcomponent]
      simp only [if_true]
      exact hstrip

theorem dropWhile_isSkipped {segments : List (List Char)}
    (hfirst : ∀ segment ∈ segments.head?, isSkipped segment = false) :
    segments.dropWhile isSkipped = segments := by
  cases segments with
  | nil => rfl
  | cons first rest => exact List.dropWhile_cons_of_neg (by simp [hfirst first rfl])

theorem trimBack_eq {segments : List (List Char)}
    (hlast : ∀ segment ∈ segments.getLast?, isSkipped segment = false) :
    trimBack segments = segments := by
  rw [trimBack, dropWhile_isSkipped, List.reverse_reverse]
  rwa [List.head?_reverse]

/-- Segments that count stay when those around them are dropped. -/
theorem trimBoth_append {skipped segments : List (List Char)}
    (hskipped : ∀ segment ∈ skipped, isSkipped segment = true)
    (hfirst : ∀ segment ∈ segments.head?, isSkipped segment = false)
    (hlast : ∀ segment ∈ segments.getLast?, isSkipped segment = false) :
    trimBoth (skipped ++ segments) = segments := by
  rw [trimBoth, List.dropWhile_append_of_pos hskipped, dropWhile_isSkipped hfirst,
    trimBack_eq hlast]

/-- Where the first segments of a path stand for a root's components, the other ones are seen from
there. -/
theorem strip?_of_split {root p : Pathname} {lead : Lead} {front segments : List (List Char)}
    (hroot : components root = lead.components ++ front.filterMap component?)
    (hfront : lead = .plain → front ≠ [] → front.filterMap component? ≠ [])
    (hp : split p = (lead, front ++ segments))
    (hskipped : ∀ segment ∈ segments, isSkipped segment = false) :
    strip? root p = some (join segments) := by
  have hfirst : ∀ segment ∈ segments.head?, isSkipped segment = false :=
    fun segment h => hskipped segment (List.mem_of_mem_head? h)
  have hlast : ∀ segment ∈ segments.getLast?, isSkipped segment = false :=
    fun segment h => hskipped segment (List.mem_of_mem_getLast? h)
  obtain ⟨skipped, hall, hstrip⟩ := exists_stripSegments front segments
  have htrim : (some (skipped ++ segments)).map (join ∘ trimBoth) = some (join segments) := by
    rw [Option.map_some, Function.comp_apply, trimBoth_append hall hfirst hlast]
  rw [strip?, hp]
  dsimp only
  rw [hroot]
  cases lead with
  | root =>
    simp only [Lead.components, List.singleton_append, if_true]
    rw [hstrip, htrim]
  | here =>
    simp only [Lead.components, List.singleton_append, if_true]
    rw [hstrip, htrim]
  | plain =>
    rw [Lead.components, List.nil_append]
    cases hcs : front.filterMap component? with
    | nil =>
      have hnil : front = [] := Decidable.byContradiction fun hne => hfront rfl hne hcs
      rw [hnil, List.nil_append, trimBack_eq hlast]
      rfl
    | cons c cs =>
      have hc : c ≠ .root ∧ c ≠ .here := by
        obtain ⟨segment, -, hsegment⟩ :=
          List.mem_filterMap.mp (hcs ▸ List.mem_cons_self : c ∈ front.filterMap component?)
        exact component?_ne_lead hsegment
      rw [hcs] at hstrip
      cases c with
      | root => exact absurd rfl hc.1
      | here => exact absurd rfl hc.2
      | up => simp only [if_true, hstrip, htrim]
      | name name => simp only [if_true, hstrip, htrim]

/-- What lies below a root is seen from it as it lies there. -/
theorem strip?_opened {root : Pathname} (hroot : root ≠ []) {segments : List (List Char)}
    (hne : segments ≠ []) (hslash : ∀ segment ∈ segments, '/' ∉ segment)
    (hskipped : ∀ segment ∈ segments, isSkipped segment = false) :
    strip? root (opened root ++ join segments) = some (join segments) := by
  obtain ⟨front, hfront, hsplit⟩ := exists_split_opened hroot
  have hcomponents : components root =
      (split root).1.components ++ front.filterMap component? := by rw [components, hfront]
  refine strip?_of_split hcomponents (fun hlead _ hnone => ?_) ?_ hskipped
  · rw [hlead, Lead.components, List.nil_append, hnone] at hcomponents
    exact components_ne_nil hroot hcomponents
  · rw [hsplit, fields_join hne hslash]

/-- Behind a directory's path and the directories below it, a file name is the last segment. -/
theorem precedes_opened {root : Pathname} (hroot : root ≠ []) {directories : List (List Char)}
    (hdirs : ∀ d ∈ directories, '/' ∉ d) :
    ∃ lead segments, Precedes lead segments (opened root ++ join (directories ++ [[]])) := by
  obtain ⟨front, -, hsplit⟩ := exists_split_opened hroot
  refine ⟨(split root).1, front ++ directories, fun name _ _ hslash => ?_⟩
  rw [List.append_assoc, ← join_eq_append, hsplit, fields_join (by simp), List.append_assoc]
  exact forall_mem_append_singleton hdirs hslash

/-- An extension is what follows the last dot of a name, where something stands before. -/
theorem splitName_eq_some {name extension : List Char}
    (h : (splitName name).2 = some extension) :
    ∃ stem, stem ≠ [] ∧ '.' ∉ extension ∧ name = stem ++ '.' :: extension := by
  unfold splitName at h
  split at h
  · cases h
  · cases h
  · next found stem hstem hcut =>
    cases h
    have hdot : ¬ ['.'] <:+: found := Text.not_infix_before_of_cut (by decide) hcut
    have hname := congrArg List.reverse (Text.append_of_cut hcut)
    refine ⟨stem.reverse, ?_, ?_, ?_⟩
    · rw [ne_eq, List.reverse_eq_nil_iff]
      rintro rfl
      exact hstem rfl
    · intro hmem
      obtain ⟨before, after, hfound⟩ := List.append_of_mem (List.mem_reverse.mp hmem)
      exact hdot ⟨before, after, by rw [hfound, List.append_assoc, List.singleton_append]⟩
    · simpa using hname

end Pathname

open Pathname

/-- What lies below a directory has its names behind the directory's path. -/
theorem pathBelow_eq {d : Pathname} {names : Location} (hne : names ≠ [])
    (h : ∀ name ∈ names, IsName name) : pathBelow d names = opened d ++ join names := by
  induction names generalizing d with
  | nil => exact absurd rfl hne
  | cons name names ih =>
    rw [List.forall_mem_cons] at h
    have hname : under d name = opened d ++ name := by
      have hhead : (join [name]).head? ≠ some '/' :=
        head?_join_ne (by simp [h.1.ne_nil, h.1.slash])
      exact under_eq_append hhead
    rw [pathBelow, List.foldl_cons, hname]
    cases names with
    | nil => rfl
    | cons next names =>
      have hrest := ih (d := opened d ++ name) (List.cons_ne_nil next names) h.2
      rw [pathBelow, opened_append h.1] at hrest
      rw [hrest, join_cons_cons, List.append_assoc, List.append_assoc, List.singleton_append]

/-- A file below a root: the directories that lead to it, and its name up to the last dot. -/
structure Stem where
  directories : List (List Char)
  name : List Char
deriving Repr, DecidableEq

namespace Stem

def names (s : Stem) (extension : List Char) : Location :=
  s.directories ++ [s.name ++ '.' :: extension]

def path (s : Stem) (root : Pathname) (extension : List Char) : Pathname :=
  opened root ++ join (s.names extension)

/-- The path of the file as a template below a root. -/
def template (s : Stem) (o : Options) (root : Pathname) : Pathname :=
  s.path root o.sourceExtension.toList

/-- What remains of the names when the extension is another one: where two dots would be left,
they are. -/
def renamed (s : Stem) (extension : List Char) : Location :=
  if s.name = ['.'] then s.directories ++ [['.', '.']] else s.names extension

theorem renamed_ne_nil (s : Stem) (extension : List Char) : s.renamed extension ≠ [] := by
  rw [renamed]
  split <;> simp [names]

/-- A stem that is a file's with an extension. -/
structure Spelled (s : Stem) (extension : List Char) : Prop where
  directories : ∀ d ∈ s.directories, IsName d
  ne_nil : s.name ≠ []
  file : IsName (s.name ++ '.' :: extension)
  dot : '.' ∉ extension

namespace Spelled

variable {s : Stem} {old new : List Char} (h : s.Spelled old)
include h

theorem isName_of_mem {name : List Char} (hname : name ∈ s.names old) : IsName name :=
  forall_mem_append_singleton h.directories h.file name hname

/-- The names are names also with another extension. -/
theorem isName_of_mem_names (hslash : '/' ∉ new) (hnew : new ≠ []) {name : List Char}
    (hname : name ∈ s.names new) : IsName name := by
  have hlength : 2 < (s.name ++ '.' :: new).length := by
    have hfirst := List.length_pos_iff.mpr h.ne_nil
    have hlast := List.length_pos_iff.mpr hnew
    rw [List.length_append, List.length_cons]
    omega
  refine forall_mem_append_singleton h.directories ⟨?_, ?_, ?_, ?_⟩ name hname
  · exact fun heq => absurd (heq ▸ hlength) (by decide)
  · exact fun heq => absurd (heq ▸ hlength) (by decide)
  · exact fun heq => absurd (heq ▸ hlength) (by decide)
  · have := h.file.slash
    simp_all

theorem withExtension_path {root : Pathname} (hroot : root ≠ []) (hnew : new ≠ []) :
    withExtension new (s.path root old) = opened root ++ join (s.renamed new) := by
  obtain ⟨lead, segments, hprecedes⟩ :=
    precedes_opened hroot fun d hd => (h.directories d hd).slash
  have hpath (name : List Char) : opened root ++ join (s.directories ++ [name]) =
      opened root ++ join (s.directories ++ [[]]) ++ name := by
    rw [join_eq_append, List.append_assoc]
  rw [path, names, hpath (s.name ++ '.' :: old), renamed]
  split
  · next hdot =>
    have hname := h.file
    rw [hdot, List.singleton_append] at hname ⊢
    rw [hpath ['.', '.'], hprecedes.withExtension_dots hname h.dot]
  · next hdot =>
    rw [hprecedes.withExtension h.file h.dot hnew h.ne_nil hdot, names,
      hpath (s.name ++ '.' :: new)]

theorem of_mem_renamed (hslash : '/' ∉ new) (hnew : new ≠ []) {name : List Char}
    (hname : name ∈ s.renamed new) : '/' ∉ name ∧ isSkipped name = false := by
  rw [renamed] at hname
  split at hname
  · exact forall_mem_append_singleton (P := fun name => '/' ∉ name ∧ isSkipped name = false)
      (fun d hd => ⟨(h.directories d hd).slash, (h.directories d hd).not_skipped⟩)
      ⟨by decide, rfl⟩ name hname
  · have hname := h.isName_of_mem_names hslash hnew hname
    exact ⟨hname.slash, hname.not_skipped⟩

theorem head?_join_renamed (hslash : '/' ∉ new) (hnew : new ≠ []) :
    (join (s.renamed new)).head? ≠ some '/' := by
  apply head?_join_ne
  intro name hname
  obtain ⟨hslash, hskipped⟩ := h.of_mem_renamed hslash hnew (List.mem_of_mem_head? hname)
  exact ⟨fun heq => by simp [heq, isSkipped] at hskipped, hslash⟩

theorem fields_renamed (hslash : '/' ∉ new) (hnew : new ≠ []) (d : Pathname) :
    Text.fields '/' (opened d ++ join (s.renamed new)) = front d ++ s.renamed new := by
  rw [fields_opened_append, fields_join (s.renamed_ne_nil _) fun name hname =>
    (h.of_mem_renamed hslash hnew hname).1]

end Spelled

/-- A template below a root is written below the output directory, or else below the root, at the
place it has. -/
theorem Spelled.target?_template {s : Stem} {o : Options} {root : Pathname}
    (h : s.Spelled o.sourceExtension.toList) (hroot : root ≠ [])
    (hnew : o.targetExtension.toList ≠ []) (hslash : '/' ∉ o.targetExtension.toList) :
    target? o (s.template o root) (some root) =
      some (opened ((o.outDir.map String.toList).getD root) ++
        join (s.renamed o.targetExtension.toList)) := by
  have hstrip : strip? root (opened root ++ join (s.renamed o.targetExtension.toList)) =
      some (join (s.renamed o.targetExtension.toList)) :=
    strip?_opened hroot (s.renamed_ne_nil _) (fun _ hname => (h.of_mem_renamed hslash hnew hname).1)
      fun _ hname => (h.of_mem_renamed hslash hnew hname).2
  rw [target?, if_neg hslash]
  dsimp only
  rw [template, h.withExtension_path hroot hnew]
  cases o.outDir with
  | none => rfl
  | some outDir =>
    simp only [relocate, Option.bind_some, hstrip, Option.map_some, Option.getD_some]
    rw [under_eq_append (h.head?_join_renamed hslash hnew)]

/-- A template is a file whose extension is the one of templates. -/
theorem exists_of_isTemplate {o : Options} {root : Pathname} (hroot : root ≠ []) {names : Location}
    (hne : names ≠ []) (hnames : ∀ name ∈ names, IsName name)
    (h : isTemplate o (opened root ++ join names) = true) :
    ∃ s : Stem, s.Spelled o.sourceExtension.toList ∧ names = s.names o.sourceExtension.toList := by
  obtain ⟨directories, file, rfl⟩ : ∃ directories file, names = directories ++ [file] :=
    ⟨_, _, (List.dropLast_concat_getLast hne).symm⟩
  rw [List.forall_mem_append, List.forall_mem_singleton] at hnames
  obtain ⟨lead, segments, hprecedes⟩ :=
    precedes_opened hroot fun d hd => (hnames.1 d hd).slash
  rw [isTemplate, decide_eq_true_iff, join_eq_append, ← List.append_assoc, extension?,
    hprecedes.fileName? hnames.2, Option.bind_some] at h
  obtain ⟨stem, hstem, hdot, rfl⟩ := splitName_eq_some h
  exact ⟨⟨directories, stem⟩, ⟨hnames.1, hstem, hnames.2, hdot⟩, rfl⟩

end Stem
end Stencil.Disk
