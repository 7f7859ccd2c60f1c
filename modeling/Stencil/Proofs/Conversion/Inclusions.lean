import Stencil.Disk.Target
import Stencil.Proofs.Conversion.Run
import Stencil.Proofs.Disk.Pathname
import Stencil.Proofs.Handlebars.RoundTrip

/-!
# Includes and the files that are written

A template is written to its path with another extension, and an include names a
file by a rule of its own: a quoted name has its first extension replaced, and a
bare one is taken for a reference, whose dots and slashes alike become slashes.
Here the names are compared with the paths. They agree for plain names, and it
is said exactly for which they do.
-/

namespace Stencil.Handlebars

/-- A tag that embeds a template is read to its end, also without a space before its braces. -/
theorem Program.ofText_embed {c : Call} (hn : c.Normal) (hx : c.Expressible)
    (hlast : c.print.getLast? ≠ some '~') :
    Program.ofText (inBraces ('>' :: ' ' :: c.print)) = .ok (.ofBody [.embed c.head c.args]) := by
  have hsealed : Text.Sealed ('>' :: ' ' :: c.print) :=
    Text.sealed_cons (by decide) (by decide)
      (Text.sealed_cons (by decide) (by decide) (Call.sealed_print hn hx))
  have hfirm : Text.Firm ('>' :: ' ' :: c.print) := (Call.firm_print hn).cons_cons (by decide)
  have hend : ('>' :: ' ' :: c.print).getLast? ≠ some '~' := by
    obtain ⟨d, s, hd⟩ := List.exists_cons_of_ne_nil (Call.firm_print hn).ne_nil
    rw [hd] at hlast ⊢
    simpa [List.getLast?_cons_cons] using hlast
  have hread : Tag.read ('>' :: ' ' :: c.print ++ Tag.closingBraces ++ []) =
      .ok (.ofInner ('>' :: ' ' :: c.print), []) :=
    Tag.read_inner hsealed (by decide) (by decide) (by decide) hend
  have hdirective : Directive.ofTag (.ofInner ('>' :: ' ' :: c.print)) =
      .ok (.embed c.head c.args) := by
    change Directive.ofPlain (Text.trim ('>' :: ' ' :: c.print)) = _
    rw [hfirm.trim_eq, Directive.ofPlain, Directive.ofEmbed, Call.parse_blank_cons (by decide),
      Call.parse_print (hn.legible hx)]
    rfl
  have hrun : Nesting.run {} (Segment.tidied .start (inBraces ('>' :: ' ' :: c.print) ++ [])) =
      (Nesting.push {} (.embed c.head c.args)).run (Segment.tidied _ []) :=
    Nesting.run_tag hread rfl hdirective rfl
  rw [List.append_nil, Segment.tidied_nil] at hrun
  have hsource : Nesting.run {} (Segment.ofSource (inBraces ('>' :: ' ' :: c.print))) =
      .ok (Nesting.push {} (.embed c.head c.args)) := hrun
  rw [Program.ofText, hsource]
  rfl

theorem Path.names_of_not_mem {segment : List Char} (hne : segment ≠ []) (h : '.' ∉ segment) :
    Path.names segment = [String.ofList segment] := by
  simp [Path.names, Text.fields_of_not_mem h, hne]

theorem Path.flatMap_names {segments : List (List Char)}
    (h : ∀ segment ∈ segments, segment ≠ [] ∧ '.' ∉ segment) :
    segments.flatMap Path.names = segments.map String.ofList := by
  induction segments with
  | nil => rfl
  | cons first rest ih =>
    obtain ⟨hne, hdot⟩ := h first List.mem_cons_self
    rw [List.flatMap_cons, Path.names_of_not_mem hne hdot,
      ih fun segment hsegment => h segment (List.mem_cons_of_mem first hsegment)]
    rfl

/-- A number has digits, a point and a minus sign, and nothing else. -/
theorem Expr.mem_of_isNumber {word : List Char} (h : Expr.isNumber word = true) :
    ∀ c ∈ word, c.isDigit = true ∨ c = '.' ∨ c = '-' := by
  have hdigits {s : List Char} (hs : Expr.isDigits s = true) : ∀ c ∈ s, c.isDigit = true := by
    simp only [Expr.isDigits, Bool.and_eq_true, List.all_eq_true] at hs
    exact hs.2
  have hfraction {s whole fraction : List Char} (hcut : Text.cut ['.'] s = some (whole, fraction))
      (hs : (Expr.isDigits whole && Expr.isDigits fraction) = true) :
      ∀ c ∈ s, c.isDigit = true ∨ c = '.' := by
    intro c hc
    rw [Bool.and_eq_true] at hs
    rw [Text.append_of_cut hcut] at hc
    simp only [List.mem_append, List.mem_singleton] at hc
    rcases hc with (hc | hc) | hc
    · exact .inl (hdigits hs.1 c hc)
    · exact .inr hc
    · exact .inl (hdigits hs.2 c hc)
  intro c hc
  unfold Expr.isNumber at h
  split at h
  · rcases List.mem_cons.mp hc with rfl | hc
    · exact .inr (.inr rfl)
    · dsimp only at h
      split at h
      · next hcut => exact (hfraction hcut h c hc).imp_right .inl
      · exact .inl (hdigits h c hc)
  · dsimp only at h
    split at h
    · next hcut => exact (hfraction hcut h c hc).imp_right .inl
    · exact .inl (hdigits h c hc)

end Stencil.Handlebars

namespace Stencil.Disk

open Handlebars (Token Path)

/-- Nothing is dropped from a list by either of two rules. -/
theorem filter_dropWhile_eq_self_iff {α : Type} {p q : α → Bool} {l : List α} :
    (l.dropWhile p).filter q = l ↔ (∀ x ∈ l.head?, p x = false) ∧ ∀ x ∈ l, q x = true := by
  constructor
  · intro h
    have hlength : l.length ≤ (l.dropWhile p).length := by
      have hfilter := List.length_filter_le q (l.dropWhile p)
      rwa [h] at hfilter
    have hdrop : l.dropWhile p = l := (List.dropWhile_sublist p).eq_of_length_le hlength
    rw [hdrop, List.filter_eq_self] at h
    refine ⟨?_, h⟩
    cases l with
    | nil => simp
    | cons x l =>
      simp only [List.head?_cons, Option.mem_some_iff, forall_eq']
      rw [Bool.eq_false_iff]
      intro hx
      rw [List.dropWhile_cons_of_pos hx] at hlength
      have := (List.dropWhile_sublist (l := l) p).length_le
      rw [List.length_cons] at hlength
      omega
  · rintro ⟨hfirst, hall⟩
    have hdrop : l.dropWhile p = l := by
      cases l with
      | nil => rfl
      | cons x l => exact List.dropWhile_cons_of_neg (by simp [hfirst x rfl])
    rw [hdrop, List.filter_eq_self]
    exact hall

/-- A character of a template's path: none that ends a word, is a brace, or means something in a
reference. Letters and digits of all alphabets are among them, and so are `_`, `-` and `.`. -/
def isPathChar (c : Char) : Bool :=
  !Token.endsWord c && c != '{' && c != '}' && c != '/' && c != '@'

example : ∀ c ∈ "Größe_2-b.v1".toList, isPathChar c = true :=
  List.all_eq_true.mp (by decide)

/-- The relative path of a template: its directories, and its file name up to the extension. -/
structure TemplatePath where
  directories : List (List Char)
  name : List Char
  names : ∀ segment ∈ directories ++ [name ++ ".hbs".toList], Pathname.IsName segment
  plain : ∀ segment ∈ directories ++ [name ++ ".hbs".toList], ∀ c ∈ segment, isPathChar c = true

namespace TemplatePath

variable (t : TemplatePath)

def path : Pathname :=
  Pathname.join (t.directories ++ [t.name ++ ".hbs".toList])

def stem : Pathname :=
  Pathname.join (t.directories ++ [t.name])

/-- The path with the other extension at its end. -/
def renamed : Pathname :=
  Pathname.join (t.directories ++ [t.name ++ ".html".toList])

theorem path_eq : t.path = t.stem ++ ".hbs".toList :=
  Pathname.join_append_singleton ..

theorem renamed_eq : t.renamed = t.stem ++ ".html".toList :=
  Pathname.join_append_singleton ..

theorem isName_file : Pathname.IsName (t.name ++ ".hbs".toList) :=
  t.names _ (by simp)

theorem isName_directory {d : List Char} (h : d ∈ t.directories) : Pathname.IsName d :=
  t.names d (by simp [h])

/-- The file that a template is written to. -/
theorem target?_eq {o : Options} (htarget : o.targetExtension = "html") (hout : o.outDir = none)
    (root : Option Pathname) :
    target? o t.path root = some (Pathname.withExtension "html".toList t.path) := by
  rw [target?, hout, htarget, if_neg (by decide)]

theorem withExtension_path (hname : t.name ≠ []) (hdot : t.name ≠ ['.']) :
    Pathname.withExtension "html".toList t.path = t.renamed :=
  Pathname.withExtension_join (fun _ => t.isName_directory) t.isName_file (by decide) (by decide)
    hname hdot

/-- A file name that is all extension gets a second one. -/
theorem withExtension_path_of_nil (hname : t.name = []) :
    Pathname.withExtension "html".toList t.path = t.path ++ ".html".toList := by
  have hfile : Pathname.IsName ('.' :: "hbs".toList) := by simpa [hname] using t.isName_file
  have hpath : t.path = Pathname.join (t.directories ++ ['.' :: "hbs".toList]) := by
    rw [path, hname]
    rfl
  rw [hpath, ← Pathname.join_append_singleton]
  exact Pathname.withExtension_join_hidden (fun _ => t.isName_directory) hfile (by decide)
    (by decide)

/-- Of a dot before the extension two dots are left. -/
theorem withExtension_path_of_dot (hname : t.name = ['.']) :
    Pathname.withExtension "html".toList t.path = t.stem ++ ['.'] := by
  have hfile : Pathname.IsName ('.' :: '.' :: "hbs".toList) := by simpa [hname] using t.isName_file
  have hpath : t.path = Pathname.join (t.directories ++ ['.' :: '.' :: "hbs".toList]) := by
    rw [path, hname]
    rfl
  rw [hpath, Pathname.withExtension_join_dots (fun _ => t.isName_directory) hfile (by decide),
    stem, hname]
  exact Pathname.join_append_singleton t.directories ['.'] ['.']

theorem isPathChar_of_mem {c : Char} (h : c ∈ t.path) : c = '/' ∨ isPathChar c = true := by
  obtain hslash | ⟨segment, hsegment, hc⟩ := Pathname.mem_join h
  · exact .inl hslash
  · exact .inr (t.plain segment hsegment c hc)

theorem isWord_path : Handlebars.IsWord t.path := by
  constructor
  · rw [path_eq]
    simp
  · intro c hc
    rcases t.isPathChar_of_mem hc with rfl | hc
    · decide
    · simp only [isPathChar, Bool.and_eq_true, Bool.not_eq_true', bne_iff_ne] at hc
      exact ⟨hc.1.1.1.1, hc.1.1.1.2, hc.1.1.2⟩

/-- The extension tells a path from the words that stand for values. -/
theorem isLiteralWord_path : Handlebars.isLiteralWord t.path = false := by
  have hmem : 'h' ∈ t.path := by
    rw [path_eq]
    simp
  have hnumber : Handlebars.Expr.isNumber t.path = false := by
    rw [Bool.eq_false_iff]
    intro h
    have hchar := Handlebars.Expr.mem_of_isNumber h 'h' hmem
    revert hchar
    decide
  have hword (w : String) (hw : 'h' ∉ w.toList) : decide (t.path = w.toList) = false := by
    rw [decide_eq_false_iff_not]
    intro h
    exact hw (h ▸ hmem)
  rw [Handlebars.isLiteralWord, hword "true" (by decide), hword "false" (by decide),
    hword "undefined" (by decide), hword "null" (by decide), hnumber]
  rfl

/-- The path with its first extension replaced, as a quoted name has it. -/
def quotedName : List Char :=
  Text.replaceFirst ".hbs".toList ".html".toList t.path

/-- Something is replaced, and what is left is one character longer. -/
theorem exists_quotedName : ∃ before after, t.path = before ++ ".hbs".toList ++ after ∧
    Text.cut ".hbs".toList t.path = some (before, after) ∧
    t.quotedName = before ++ ".html".toList ++ after := by
  cases hcut : Text.cut ".hbs".toList t.path with
  | none =>
    refine absurd ?_ (Text.not_infix_of_cut_eq_none (by decide) hcut)
    rw [path_eq]
    exact (List.suffix_append _ _).isInfix
  | some pair =>
    obtain ⟨before, after⟩ := pair
    exact ⟨before, after, Text.append_of_cut hcut, rfl, by rw [quotedName, Text.replaceFirst, hcut]⟩

theorem length_quotedName : t.quotedName.length = t.path.length + 1 := by
  obtain ⟨before, after, hpath, -, hname⟩ := t.exists_quotedName
  rw [hname, hpath]
  simp only [List.length_append, String.length_toList]
  have : ".hbs".length = 4 := rfl
  have : ".html".length = 5 := rfl
  omega

/-- The first extension is the last one if there is none before. -/
theorem quotedName_eq_renamed_iff : t.quotedName = t.renamed ↔ ¬ ".hbs".toList <:+: t.stem := by
  constructor
  · intro h
    obtain ⟨before, after, hpath, hcut, hname⟩ := t.exists_quotedName
    rw [path_eq] at hpath
    rw [hname, renamed_eq] at h
    -- The last character shows that nothing stands behind what was replaced.
    have hafter : after = [] := by
      rcases List.eq_nil_or_concat after with hnil | ⟨front, c, rfl⟩
      · exact hnil
      · rw [List.concat_eq_append, ← List.append_assoc] at h hpath
        have hlast := congrArg List.getLast? hpath
        have hother := congrArg List.getLast? h
        simp only [List.getLast?_concat] at hlast hother
        rw [← hlast] at hother
        simp at hother
    rw [hafter, List.append_nil] at hpath
    rw [List.append_cancel_right hpath]
    exact Text.not_infix_before_of_cut (by decide) hcut
  · intro h
    have hcut : Text.cut ".hbs".toList t.path = some (t.stem, []) := by
      rw [path_eq, ← List.append_nil ".hbs".toList]
      apply Text.cut_append_of_not_infix (by decide) h
      simp [List.suffix_cons_iff]
    simp only [quotedName, Text.replaceFirst, hcut, List.append_nil, renamed_eq]

/-- A quoted name is the file that is written exactly if the extension is the first of its kind
and there is a file name before it. -/
theorem quotedName_eq_target_iff :
    t.quotedName = Pathname.withExtension "html".toList t.path ↔
      t.name ≠ [] ∧ t.name ≠ ['.'] ∧ ¬ ".hbs".toList <:+: t.stem := by
  have hlength := t.length_quotedName
  by_cases hnil : t.name = []
  · refine iff_of_false ?_ fun h => h.1 hnil
    intro h
    rw [h, t.withExtension_path_of_nil hnil, List.length_append] at hlength
    simp at hlength
  by_cases hdot : t.name = ['.']
  · refine iff_of_false ?_ fun h => h.2.1 hdot
    intro h
    rw [h, t.withExtension_path_of_dot hdot, path_eq, List.length_append,
      List.length_append] at hlength
    simp at hlength
  · rw [t.withExtension_path hnil hdot, quotedName_eq_renamed_iff]
    simp [hnil, hdot]

/-- The parts of the path as a reference, without the extension. -/
def parts : List String :=
  (Path.ofText t.path).parts.filter (· ≠ "hbs")

/-- The name that the parts make, as a bare name has it. -/
def bareName : String :=
  "/".intercalate t.parts ++ "." ++ "html"

theorem segments_path :
    Path.segments t.path = t.directories ++ [t.name ++ ".hbs".toList] := by
  have hsign : '@' ∉ t.path := by
    intro h
    rcases t.isPathChar_of_mem h with h | h
    · simp at h
    · simp [isPathChar] at h
  rw [Path.segments, Path.withoutSign_of_head? fun h => hsign (List.mem_of_mem_head? h), path]
  exact Pathname.fields_join (by simp) fun segment hsegment => (t.names segment hsegment).slash

/-- The parts of a reference have no dots. -/
theorem dot_not_mem_parts : '.' ∉ ("/".intercalate t.parts).toList := by
  intro h
  obtain hslash | ⟨part, hpart, hdot⟩ := Text.mem_intercalate h
  · simp at hslash
  · have hmem := (List.dropWhile_sublist _).subset (List.mem_filter.mp hpart).1
    obtain ⟨segment, -, hname⟩ := List.mem_flatMap.mp hmem
    obtain ⟨field, hfield, rfl⟩ := List.mem_map.mp hname
    rw [String.toList_ofList] at hdot
    exact Text.not_mem_of_mem_fields (List.mem_filter.mp hfield).1 hdot

/-- The directories and the file name, as the names of a reference. -/
def components : List String :=
  (t.directories ++ [t.name]).map String.ofList

theorem stem_eq_join : t.stem = Pathname.join (t.components.map String.toList) := by
  simp [stem, components, Function.comp_def]

/-- Where no dot stands before the extension, the parts are the components, except for those that
a reference leaves out. -/
theorem parts_of_undotted (hname : t.name ≠ []) (hdot : '.' ∉ t.stem) :
    t.parts = (t.components.dropWhile (· = "this")).filter (· ≠ "hbs") := by
  have hsegment : ∀ segment ∈ t.directories ++ [t.name], '.' ∉ segment := by
    intro segment hmem h
    exact hdot (Pathname.mem_join_of_mem hmem h)
  have hdirectories : t.directories.flatMap Path.names = t.directories.map String.ofList := by
    apply Path.flatMap_names
    intro d hd
    exact ⟨(t.isName_directory hd).ne_nil, hsegment d (by simp [hd])⟩
  have hfile : Path.names (t.name ++ ".hbs".toList) = [String.ofList t.name, "hbs"] := by
    have hfields : Text.fields '.' (t.name ++ ".hbs".toList) = [t.name, "hbs".toList] := by
      rw [show ".hbs".toList = '.' :: "hbs".toList from rfl, Text.fields_append,
        Text.fields_of_not_mem (hsegment t.name (by simp))]
      rfl
    rw [Path.names, hfields]
    simp [hname]
  have hparts : (Path.ofText t.path).parts =
      (t.components ++ ["hbs"]).dropWhile (· = "this") := by
    simp only [Path.ofText, segments_path, List.flatMap_append, hdirectories,
      List.flatMap_cons, List.flatMap_nil, hfile, components, List.map_append]
    simp
  rw [parts, hparts, List.dropWhile_append]
  split
  · next hall =>
    rw [List.isEmpty_iff.mp hall]
    rfl
  · simp

/-- Nothing is left out if no component is named like the extension and the first one does not
stand for the current value. -/
theorem parts_eq_components_iff (hname : t.name ≠ []) (hdot : '.' ∉ t.stem) :
    t.parts = t.components ↔
      "hbs".toList ∉ t.directories ++ [t.name] ∧
        (t.directories ++ [t.name]).head? ≠ some "this".toList := by
  have hmem : "hbs" ∈ t.components ↔ "hbs".toList ∈ t.directories ++ [t.name] := by
    constructor
    · intro h
      obtain ⟨segment, hsegment, heq⟩ := List.mem_map.mp h
      rwa [← heq, String.toList_ofList]
    · intro h
      exact List.mem_map.mpr ⟨_, h, String.ofList_toList⟩
  have hhead : t.components.head? = some "this" ↔
      (t.directories ++ [t.name]).head? = some "this".toList := by
    rw [components, List.head?_map, Option.map_eq_some_iff]
    constructor
    · rintro ⟨segment, hsegment, heq⟩
      rw [hsegment, ← heq, String.toList_ofList]
    · intro h
      exact ⟨_, h, String.ofList_toList⟩
  rw [parts_of_undotted t hname hdot, filter_dropWhile_eq_self_iff, ne_eq, ← hmem, ← hhead]
  cases t.components with
  | nil => simp
  | cons first rest =>
    simp only [List.head?_cons, Option.mem_some_iff, forall_eq', decide_eq_false_iff_not,
      decide_eq_true_eq, ne_eq, Option.some.injEq]
    constructor
    · rintro ⟨hfirst, hall⟩
      exact ⟨fun h => hall _ h rfl, hfirst⟩
    · rintro ⟨hall, hfirst⟩
      refine ⟨hfirst, fun x hx h => hall (h ▸ hx)⟩

theorem slash_not_mem_components : ∀ segment ∈ t.components.map String.toList, '/' ∉ segment := by
  intro segment hsegment hslash
  simp only [components, List.map_map, List.mem_map, Function.comp_apply,
    String.toList_ofList] at hsegment
  obtain ⟨segment, hmem, rfl⟩ := hsegment
  rcases List.mem_append.mp hmem with hmem | hmem
  · exact (t.isName_directory hmem).slash hslash
  · rw [List.mem_singleton.mp hmem] at hslash
    exact t.isName_file.slash (List.mem_append_left _ hslash)

theorem stem_ne_nil (hname : t.name ≠ []) : t.stem ≠ [] := by
  obtain ⟨c, name, hc⟩ := List.exists_cons_of_ne_nil hname
  intro h
  have hmem : c ∈ t.stem := Pathname.mem_join_of_mem (by simp) (hc ▸ List.mem_cons_self)
  rw [h] at hmem
  cases hmem

/-- The parts of a reference put together give the path only if they are its components. -/
theorem intercalate_parts_eq_stem_iff (hname : t.name ≠ []) :
    ("/".intercalate t.parts).toList = t.stem ↔ '.' ∉ t.stem ∧ t.parts = t.components := by
  rw [Pathname.toList_intercalate_slash]
  constructor
  · intro h
    have hdot : '.' ∉ t.stem := by
      rw [← h, ← Pathname.toList_intercalate_slash]
      exact t.dot_not_mem_parts
    refine ⟨hdot, ?_⟩
    have hparts : t.parts ≠ [] := by
      intro hnil
      rw [hnil] at h
      exact t.stem_ne_nil hname h.symm
    have hslash : ∀ segment ∈ t.parts.map String.toList, '/' ∉ segment := by
      intro segment hsegment
      apply t.slash_not_mem_components segment
      rw [parts_of_undotted t hname hdot] at hsegment
      exact ((List.filter_sublist.trans (List.dropWhile_sublist _)).map _).subset hsegment
    rw [stem_eq_join] at h
    have hjoined := Pathname.join_injective (by simpa using hparts) (by simp [components]) hslash
      t.slash_not_mem_components h
    exact (List.map_inj_right fun _ _ => String.toList_inj.mp).mp hjoined
  · rintro ⟨-, h⟩
    rw [h, stem_eq_join]

/-- A bare name is the file that is written exactly if dots stand only before the extension, no
component is named like it, and the first one does not stand for the current value. -/
theorem bareName_eq_target_iff :
    t.bareName.toList = Pathname.withExtension "html".toList t.path ↔
      t.name ≠ [] ∧ '.' ∉ t.stem ∧ "hbs".toList ∉ t.directories ++ [t.name] ∧
        (t.directories ++ [t.name]).head? ≠ some "this".toList := by
  have hbare : t.bareName.toList = ("/".intercalate t.parts).toList ++ ".html".toList := by
    simp [bareName]
  rw [hbare]
  by_cases hnil : t.name = []
  · refine iff_of_false ?_ fun h => h.1 hnil
    intro h
    rw [t.withExtension_path_of_nil hnil] at h
    apply t.dot_not_mem_parts
    rw [List.append_cancel_right h, path_eq]
    simp
  by_cases hdot : t.name = ['.']
  · refine iff_of_false ?_ ?_
    · intro h
      rw [t.withExtension_path_of_dot hdot] at h
      have hlast := congrArg List.getLast? h
      simp at hlast
    · rintro ⟨-, h, -⟩
      have hmem : t.name ∈ t.directories ++ [t.name] := by simp
      exact h (Pathname.mem_join_of_mem hmem (by simp [hdot]))
  · rw [t.withExtension_path hnil hdot, renamed_eq, List.append_left_inj,
      t.intercalate_parts_eq_stem_iff hnil]
    constructor
    · rintro ⟨hundotted, hparts⟩
      exact ⟨hnil, hundotted, (t.parts_eq_components_iff hnil hundotted).mp hparts⟩
    · rintro ⟨-, hundotted, hplain⟩
      exact ⟨hundotted, (t.parts_eq_components_iff hnil hundotted).mpr hplain⟩

end TemplatePath

end Stencil.Disk

namespace Stencil.Document

open Handlebars (Path Expr Program)
open Conversion (Step inclusionName inQuotes)
open Disk (TemplatePath)

def including (file : String) : Document where
  output := Django.blockTag ("include " ++ file)
  diagnostics := []
  conditionals := 0

theorem ofProgram_embed {o : Options} {name : Expr} {file : String}
    (h : inclusionName o [] name = pure file) :
    ofProgram o (.ofBody [.embed name {}]) = .ok (including file) := by
  have hrun : Conversion.program o (.ofBody [.embed name {}]) [] false =
      ⟨{ fragments := [[.inclusion file []]] }, .ok ()⟩ := by
    simp only [Conversion.program, Program.ofBody_body, Conversion.statements,
      Conversion.statement, Conversion.inclusion, h, Step.pure_bind]
    rfl
  have hrender : Django.Fragment.render [.inclusion file []] =
      Django.blockTag ("include " ++ file) := by
    simp [Django.Fragment.render, Django.concat, Django.Piece.render]
  rw [ofProgram, hrun]
  simp [Except.map, hrender, including]

/-- A template whose only tag embeds another, by its path in quotes. -/
def quoting (path : List Char) : String :=
  "\x7b\x7b> \"" ++ String.ofList path ++ "\"\x7d\x7d"

/-- A template whose only tag embeds another, by its bare path. -/
def naming (path : List Char) : String :=
  "\x7b\x7b> " ++ String.ofList path ++ "\x7d\x7d"

theorem inQuotes_inj {s t : String} : inQuotes s = inQuotes t ↔ s = t := by
  constructor
  · intro h
    have hlist := congrArg String.toList h
    simp only [inQuotes, String.toList_append, List.append_cancel_left_eq,
      List.append_cancel_right_eq] at hlist
    exact String.toList_inj.mp hlist
  · rintro rfl
    rfl

/-- The document of a template whose only tag embeds another. -/
theorem ofSource_embed {o : Options} {file source : String} (head : Expr)
    (hn : head.All Expr.Normal) (hx : head.All Expr.Expressible)
    (hlast : head.print.getLast? ≠ some '~')
    (hsource : source.toList = Handlebars.inBraces ('>' :: ' ' :: head.print))
    (hname : inclusionName o [] head = pure file) :
    ofSource o source = .ok (including file) := by
  have hargs : Handlebars.Arguments.Normal {} := ⟨⟨trivial, trivial⟩, by simp⟩
  have hexpressible : Handlebars.Call.Expressible { head } := ⟨hx, trivial, trivial⟩
  have hprint : Handlebars.Call.print { head } = head.print := by
    simp [Handlebars.Call.print, Expr.printParams, Expr.printHash, Handlebars.printBlockParams]
  have hread : Program.parse source = .ok (.ofBody [.embed head {}]) := by
    rw [Program.parse, hsource, ← hprint]
    apply Program.ofText_embed ⟨hn, hargs, by simp⟩ hexpressible
    rwa [hprint]
  exact ofSource_eq_ok_iff.mpr ⟨_, hread, ofProgram_embed hname⟩

section
variable {o : Options} (hsource : o.sourceExtension = "hbs") (htarget : o.targetExtension = "html")
variable (t : TemplatePath)
include hsource htarget

theorem ofSource_quoting :
    ofSource o (quoting t.path) = .ok (including (inQuotes (String.ofList t.quotedName))) := by
  have hquote : '"' ∉ t.path := by
    intro h
    have hword := (t.isWord_path.2 _ h).1
    revert hword
    decide
  have hprint : Expr.print (.string (String.ofList t.path)) = '"' :: t.path ++ ['"'] := by
    rw [Expr.print, String.toList_ofList, Handlebars.protectQuotes_of_not_mem hquote]
  apply ofSource_embed (.string (String.ofList t.path))
  · simp only [Expr.All, Expr.Normal]
  · simp only [Expr.All, Expr.Expressible, String.toList_ofList, t.path_eq]
    simp
  · rw [hprint]
    simp [List.getLast?_cons]
  · rw [hprint]
    simp [quoting, Handlebars.inBraces, Handlebars.Tag.braces, Handlebars.Tag.closingBraces]
  · rw [inclusionName, hsource, htarget, String.toList_ofList (l := t.path)]
    rfl

theorem ofSource_naming :
    ofSource o (naming t.path) = .ok (including (inQuotes t.bareName)) := by
  have hnormal : (Path.parse (String.ofList t.path)).Normal :=
    Path.normal_parse (by simpa using t.isWord_path) (by simpa using t.isLiteralWord_path)
  have hprint : Expr.print (.path (.parse (String.ofList t.path))) = t.path := by
    simp [Expr.print]
  apply ofSource_embed (.path (.parse (String.ofList t.path)))
  · simpa only [Expr.All, Expr.Normal] using hnormal
  · simp only [Expr.All, Expr.Expressible]
  · rw [hprint, t.path_eq]
    simp
  · rw [hprint]
    simp [naming, Handlebars.inBraces, Handlebars.Tag.braces, Handlebars.Tag.closingBraces]
  · rw [inclusionName, hsource, htarget, Path.parse, String.toList_ofList]
    rfl

end

/-- With the usual extensions, a template that is embedded is included under some name, and it is
written to some file. For a path in quotes the two agree exactly if the extension occurs only at the
end and there is a file name before it. For a bare path they agree exactly if moreover no other dot
occurs, no component is named like the extension, and the first does not stand for the current
value. The file is then the path with the other extension at its end. -/
theorem inclusion_eq_target_iff (o : Options) (t : TemplatePath) (root : Option Disk.Pathname)
    (hsource : o.sourceExtension = "hbs") (htarget : o.targetExtension = "html")
    (hout : o.outDir = none) :
    ∃ quoted bare target, ofSource o (quoting t.path) = .ok (including quoted) ∧
      ofSource o (naming t.path) = .ok (including bare) ∧
      Disk.target? o t.path root = some target ∧
      (quoted = inQuotes (String.ofList target) ↔
        t.name ≠ [] ∧ t.name ≠ ['.'] ∧ ¬ ".hbs".toList <:+: t.stem) ∧
      (bare = inQuotes (String.ofList target) ↔
        t.name ≠ [] ∧ '.' ∉ t.stem ∧ "hbs".toList ∉ t.directories ++ [t.name] ∧
          (t.directories ++ [t.name]).head? ≠ some "this".toList) ∧
      (t.name ≠ [] → t.name ≠ ['.'] → target = t.renamed) := by
  refine ⟨_, _, _, ofSource_quoting hsource htarget t, ofSource_naming hsource htarget t,
    t.target?_eq htarget hout root, ?_, ?_, t.withExtension_path⟩
  · rw [inQuotes_inj, String.ofList_inj, t.quotedName_eq_target_iff]
  · rw [inQuotes_inj, ← String.toList_inj, String.toList_ofList, t.bareName_eq_target_iff]

def cardPath : TemplatePath where
  directories := ["a-b".toList]
  name := "card".toList
  names := by decide
  plain := by
    simp only [← List.all_eq_true]
    decide

/-- A plain name is included as it is written, in quotes or bare. -/
theorem inclusion_eq_target_plainName :
    cardPath.path = "a-b/card.hbs".toList ∧
      Disk.target? {} cardPath.path none = some "a-b/card.html".toList ∧
      ofSource {} (quoting cardPath.path) = .ok (including (inQuotes "a-b/card.html")) ∧
      ofSource {} (naming cardPath.path) = .ok (including (inQuotes "a-b/card.html")) := by
  obtain ⟨quoted, bare, target, hquoted, hbare, htarget, hquotedIff, hbareIff, hrenamed⟩ :=
    inclusion_eq_target_iff {} cardPath none rfl rfl rfl
  have hfile : target = "a-b/card.html".toList := hrenamed (by decide) (by decide)
  rw [hfile, String.ofList_toList] at hquotedIff hbareIff
  refine ⟨by decide, ?_, ?_, ?_⟩
  · rw [htarget, hfile]
  · rw [hquoted, hquotedIff.mpr (by decide)]
  · rw [hbare, hbareIff.mpr (by decide)]

/-- A file whose name has a dot before the extension. -/
def versionedPath : TemplatePath where
  directories := []
  name := "card.v2".toList
  names := by decide
  plain := by
    simp only [← List.all_eq_true]
    decide

/-- A file in a directory whose name ends like a template's. -/
def archivedPath : TemplatePath where
  directories := ["old.hbs".toList]
  name := "card".toList
  names := by decide
  plain := by
    simp only [← List.all_eq_true]
    decide

/-- A dot in a bare name, and an extension in a directory's name, lead to a file that is not
written. -/
theorem inclusion_ne_target_dottedName :
    versionedPath.path = "card.v2.hbs".toList ∧
      Disk.target? {} versionedPath.path none = some "card.v2.html".toList ∧
      ofSource {} (naming versionedPath.path) = .ok (including (inQuotes "card/v2.html")) ∧
      archivedPath.path = "old.hbs/card.hbs".toList ∧
      Disk.target? {} archivedPath.path none = some "old.hbs/card.html".toList ∧
      ofSource {} (quoting archivedPath.path) =
        .ok (including (inQuotes "old.html/card.hbs")) := by
  refine ⟨by decide, by decide, ?_, by decide, by decide, ?_⟩
  · have hname : versionedPath.bareName = "card/v2.html" := by decide
    rw [ofSource_naming rfl rfl, hname]
  · have hname : String.ofList archivedPath.quotedName = "old.html/card.hbs" := by decide
    rw [ofSource_quoting rfl rfl, hname]

end Stencil.Document
