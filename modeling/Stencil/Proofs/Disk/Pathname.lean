import Stencil.Disk.Pathname
import Stencil.Proofs.Text

/-!
# Paths made of names

A path that is put together from plain names is taken apart into the same
names. Another extension then replaces what follows the last dot of the file
name, unless that dot is its first character, where there is nothing to replace,
or its second behind another dot, where the name that remains is no file name.
-/

namespace Stencil.Disk.Pathname

/-- A segment that is a name: not empty, neither a dot nor two, and without slashes. -/
structure IsName (segment : List Char) : Prop where
  ne_nil : segment ≠ []
  ne_here : segment ≠ ['.']
  ne_up : segment ≠ ['.', '.']
  slash : '/' ∉ segment

instance (segment : List Char) : Decidable (IsName segment) :=
  decidable_of_iff (segment ≠ [] ∧ segment ≠ ['.'] ∧ segment ≠ ['.', '.'] ∧ '/' ∉ segment)
    ⟨fun ⟨hnil, hhere, hup, hslash⟩ => ⟨hnil, hhere, hup, hslash⟩,
      fun h => ⟨h.ne_nil, h.ne_here, h.ne_up, h.slash⟩⟩

theorem IsName.not_skipped {segment : List Char} (h : IsName segment) :
    isSkipped segment = false := by
  simp [isSkipped, h.ne_nil, h.ne_here]

/-- What is added to the last segment is added to the path. -/
theorem join_append_singleton (directories : List (List Char)) (name tail : List Char) :
    join (directories ++ [name ++ tail]) = join (directories ++ [name]) ++ tail := by
  induction directories with
  | nil => rfl
  | cons first rest ih =>
    have hcons (last : List Char) :
        join (first :: rest ++ [last]) = first ++ '/' :: join (rest ++ [last]) := by
      cases rest <;> rfl
    rw [hcons, hcons, ih, List.append_assoc, List.cons_append]

theorem fields_join {segments : List (List Char)} (hne : segments ≠ [])
    (h : ∀ segment ∈ segments, '/' ∉ segment) : Text.fields '/' (join segments) = segments := by
  induction segments with
  | nil => exact absurd rfl hne
  | cons first rest ih =>
    have hfirst := Text.fields_of_not_mem (h first List.mem_cons_self)
    cases rest with
    | nil => exact hfirst
    | cons second rest =>
      have hrest := ih (List.cons_ne_nil second rest) fun segment hsegment =>
        h segment (List.mem_cons_of_mem first hsegment)
      rw [join, Text.fields_append, hfirst, hrest]
      · rfl
      · exact List.cons_ne_nil second rest

theorem mem_join {segments : List (List Char)} {c : Char} (h : c ∈ join segments) :
    c = '/' ∨ ∃ segment ∈ segments, c ∈ segment := by
  induction segments with
  | nil => cases h
  | cons first rest ih =>
    cases rest with
    | nil => exact .inr ⟨first, List.mem_cons_self, h⟩
    | cons second rest =>
      rw [join, List.mem_append, List.mem_cons] at h
      · rcases h with h | h | h
        · exact .inr ⟨first, List.mem_cons_self, h⟩
        · exact .inl h
        · obtain hslash | ⟨segment, hsegment, hc⟩ := ih h
          · exact .inl hslash
          · exact .inr ⟨segment, List.mem_cons_of_mem first hsegment, hc⟩
      · exact List.cons_ne_nil second rest

theorem mem_join_of_mem {segments : List (List Char)} {segment : List Char} {c : Char}
    (h : segment ∈ segments) (hc : c ∈ segment) : c ∈ join segments := by
  induction segments with
  | nil => cases h
  | cons first rest ih =>
    cases rest with
    | nil => rwa [List.mem_singleton.mp h] at hc
    | cons second rest =>
      rw [join, List.mem_append, List.mem_cons]
      · rcases List.mem_cons.mp h with rfl | h
        · exact .inl hc
        · exact .inr (.inr (ih h))
      · exact List.cons_ne_nil second rest

theorem toList_intercalate_slash (segments : List String) :
    ("/".intercalate segments).toList = join (segments.map String.toList) := by
  induction segments with
  | nil => rfl
  | cons first rest ih =>
    cases rest with
    | nil => simp [join]
    | cons second rest =>
      rw [String.intercalate_cons_cons, String.toList_append, String.toList_append, ih]
      simp [join]

theorem join_injective {first second : List (List Char)} (hfirst : first ≠ [])
    (hsecond : second ≠ []) (h₁ : ∀ segment ∈ first, '/' ∉ segment)
    (h₂ : ∀ segment ∈ second, '/' ∉ segment) (h : join first = join second) : first = second := by
  rw [← fields_join hfirst h₁, h, fields_join hsecond h₂]

/-- A path of names begins neither at the root nor with a dot. -/
theorem split_join {segments : List (List Char)} (hne : segments ≠ [])
    (h : ∀ segment ∈ segments, '/' ∉ segment)
    (hfirst : ∀ segment ∈ segments.head?, segment ≠ [] ∧ segment ≠ ['.']) :
    split (join segments) = (.plain, segments) := by
  -- Any other beginning would show in the first segment.
  have hfields := fields_join hne h
  rw [split.eq_def]
  split
  · next heq =>
    rw [heq, Text.fields, if_pos rfl] at hfields
    exact absurd rfl (hfirst [] (by rw [← hfields]; rfl)).1
  · next heq =>
    rw [heq] at hfields
    exact absurd rfl (hfirst ['.'] (by rw [← hfields]; rfl)).2
  · next s heq =>
    rw [heq, ← List.singleton_append, Text.fields_append '/' ['.'] s] at hfields
    exact absurd rfl (hfirst ['.'] (by rw [← hfields]; rfl)).2
  · rw [hfields]

section
variable {directories : List (List Char)} {name : List Char}

theorem forall_mem_append_singleton {P : List Char → Prop} (hdirs : ∀ d ∈ directories, P d)
    (hname : P name) : ∀ segment ∈ directories ++ [name], P segment := by
  simp only [List.mem_append, List.mem_singleton]
  rintro segment (hsegment | rfl)
  · exact hdirs segment hsegment
  · exact hname

/-- A path of directories and a last segment that is no directory's name is taken apart. -/
theorem split_join_append (hdirs : ∀ d ∈ directories, IsName d) (hnil : name ≠ [])
    (hhere : name ≠ ['.']) (hslash : '/' ∉ name) :
    split (join (directories ++ [name])) = (.plain, directories ++ [name]) := by
  apply split_join (by simp)
  · exact forall_mem_append_singleton (fun d hd => (hdirs d hd).slash) hslash
  · intro segment hsegment
    have hmem : segment ∈ directories ++ [name] := List.mem_of_mem_head? hsegment
    exact forall_mem_append_singleton (P := fun d => d ≠ [] ∧ d ≠ ['.'])
      (fun d hd => ⟨(hdirs d hd).ne_nil, (hdirs d hd).ne_here⟩) ⟨hnil, hhere⟩ segment hmem

theorem last?_append_singleton (hskipped : isSkipped name = false) :
    last? (directories ++ [name]) = some (name, directories.reverse) := by
  simp [last?, hskipped]

end

/-- The last dot of a name divides it, unless it stands at the very start. -/
theorem splitName_append {stem extension : List Char} (hstem : stem ≠ [])
    (hdot : '.' ∉ extension) : splitName (stem ++ '.' :: extension) = (stem, some extension) := by
  have hcut : Text.cut ['.'] (stem ++ '.' :: extension).reverse =
      some (extension.reverse, stem.reverse) := by
    rw [List.reverse_append, List.reverse_cons, List.append_assoc]
    exact Text.cut_singleton_append (by simpa using hdot) stem.reverse
  obtain ⟨c, s, hs⟩ := List.exists_cons_of_ne_nil (List.reverse_ne_nil_iff.mpr hstem)
  rw [splitName, hcut]
  simp [hs, ← List.reverse_eq_iff.mp hs]

theorem splitName_hidden {name : List Char} (hdot : '.' ∉ name) :
    splitName ('.' :: name) = ('.' :: name, none) := by
  have hcut : Text.cut ['.'] ('.' :: name).reverse = some (name.reverse, []) := by
    rw [List.reverse_cons]
    exact Text.cut_singleton_append (by simpa using hdot) []
  rw [splitName, hcut]

/-- A text behind which a file name is the last segment. -/
def Precedes (lead : Lead) (segments : List (List Char)) (text : Pathname) : Prop :=
  ∀ name, name ≠ [] → name ≠ ['.'] → '/' ∉ name → split (text ++ name) = (lead, segments ++ [name])

namespace Precedes

variable {lead : Lead} {segments : List (List Char)} {text : Pathname}
variable {stem name old new : List Char} (h : Precedes lead segments text)
include h

/-- The text ends with its last slash. -/
theorem text_eq : text = lead.text ++ join (segments ++ [[]]) := by
  have hsplit := append_split (text ++ ['a'])
  rw [h ['a'] (by decide) (by decide) (by decide)] at hsplit
  dsimp only at hsplit
  rw [← List.nil_append ['a'], join_append_singleton, ← List.append_assoc] at hsplit
  exact (List.append_cancel_right hsplit).symm

theorem append_join (name : List Char) : text ++ name = lead.text ++ join (segments ++ [name]) := by
  rw [h.text_eq, ← List.nil_append name, join_append_singleton, List.append_assoc,
    List.nil_append]

theorem fileName? (hname : IsName name) : fileName? (text ++ name) = some name := by
  rw [Pathname.fileName?, h name hname.ne_nil hname.ne_here hname.slash]
  simp only [last?_append_singleton hname.not_skipped, hname.ne_up, if_false]

theorem setExtension (hname : IsName name) (hnew : new ≠ []) :
    setExtension new (text ++ name) = text ++ ((splitName name).1 ++ '.' :: new) := by
  rw [Pathname.setExtension, h name hname.ne_nil hname.ne_here hname.slash]
  simp [last?_append_singleton hname.not_skipped, hname.ne_up, hnew, ← h.append_join]

theorem cutExtension (hname : IsName (stem ++ '.' :: old)) (hstem : stem ≠ []) (hold : '.' ∉ old) :
    cutExtension (text ++ (stem ++ '.' :: old)) = text ++ (stem ++ ['.']) := by
  have hfile := h.fileName? hname
  have hlast : (split (text ++ (stem ++ '.' :: old))).2.getLast? =
      Pathname.fileName? (text ++ (stem ++ '.' :: old)) := by
    rw [hfile, h _ hname.ne_nil hname.ne_here hname.slash]
    simp
  have hextension : extension? (text ++ (stem ++ '.' :: old)) = some old := by
    rw [extension?, hfile, Option.bind_some, splitName_append hstem hold]
  have hsplit : text ++ (stem ++ '.' :: old) = text ++ (stem ++ ['.']) ++ old := by simp
  rw [Pathname.cutExtension, if_pos hlast, hextension, hsplit]
  dsimp only
  rw [List.length_append, Nat.add_sub_cancel, List.take_left' rfl]

/-- Another extension takes the place of what follows the last dot. -/
theorem withExtension (hname : IsName (stem ++ '.' :: old)) (hold : '.' ∉ old) (hnew : new ≠ [])
    (hstem : stem ≠ []) (hdot : stem ≠ ['.']) :
    withExtension new (text ++ (stem ++ '.' :: old)) = text ++ (stem ++ '.' :: new) := by
  have hup : stem ++ ['.'] ≠ ['.', '.'] := by
    intro h
    exact hdot (List.append_inj' (h : stem ++ ['.'] = ['.'] ++ ['.']) rfl).1
  have hslash : '/' ∉ stem ++ ['.'] := by
    have hslash := hname.slash
    simp_all
  have hcut : IsName (stem ++ ['.']) := ⟨by simp, by simpa using hstem, hup, hslash⟩
  rw [Pathname.withExtension, h.cutExtension hname hstem hold, h.setExtension hcut hnew,
    splitName_append hstem (by simp)]

/-- A file name whose only dot comes first has no extension that could give way. -/
theorem withExtension_hidden (hname : IsName ('.' :: old)) (hold : '.' ∉ old) (hnew : new ≠ []) :
    Pathname.withExtension new (text ++ '.' :: old) = text ++ ('.' :: old ++ '.' :: new) := by
  have hextension : extension? (text ++ '.' :: old) = none := by
    rw [extension?, h.fileName? hname, Option.bind_some, splitName_hidden hold]
  have hcut : Pathname.cutExtension (text ++ '.' :: old) = text ++ '.' :: old := by
    rw [Pathname.cutExtension, hextension]
    split <;> rfl
  rw [Pathname.withExtension, hcut, h.setExtension hname hnew, splitName_hidden hold]

/-- Where two dots remain, there is no file name left to put an extension on. -/
theorem withExtension_dots (hname : IsName ('.' :: '.' :: old)) (hold : '.' ∉ old) :
    Pathname.withExtension new (text ++ '.' :: '.' :: old) = text ++ ['.', '.'] := by
  have hcut : Pathname.cutExtension (text ++ '.' :: '.' :: old) = text ++ ['.', '.'] := by
    have hname' : IsName (['.'] ++ '.' :: old) := hname
    exact h.cutExtension hname' (by simp) hold
  have hlast : last? (segments ++ [['.', '.']]) = some (['.', '.'], segments.reverse) :=
    last?_append_singleton rfl
  rw [Pathname.withExtension, hcut, Pathname.setExtension,
    h ['.', '.'] (by decide) (by decide) (by decide)]
  simp only [hlast, if_true]

end Precedes

section
variable {directories : List (List Char)} {stem old new : List Char}

/-- The file name ends a path of names. -/
theorem join_eq_append (directories : List (List Char)) (name : List Char) :
    join (directories ++ [name]) = join (directories ++ [[]]) ++ name :=
  join_append_singleton directories [] name

theorem precedes_join (hdirs : ∀ d ∈ directories, IsName d) :
    Precedes .plain directories (join (directories ++ [[]])) := by
  intro name hnil hhere hslash
  rw [← join_eq_append, split_join_append hdirs hnil hhere hslash]

theorem withExtension_join (hdirs : ∀ d ∈ directories, IsName d)
    (hname : IsName (stem ++ '.' :: old)) (hold : '.' ∉ old) (hnew : new ≠ []) (hstem : stem ≠ [])
    (hdot : stem ≠ ['.']) :
    withExtension new (join (directories ++ [stem ++ '.' :: old])) =
      join (directories ++ [stem ++ '.' :: new]) := by
  rw [join_eq_append, (precedes_join hdirs).withExtension hname hold hnew hstem hdot,
    ← join_eq_append]

theorem withExtension_join_hidden (hdirs : ∀ d ∈ directories, IsName d)
    (hname : IsName ('.' :: old)) (hold : '.' ∉ old) (hnew : new ≠ []) :
    withExtension new (join (directories ++ ['.' :: old])) =
      join (directories ++ ['.' :: old ++ '.' :: new]) := by
  rw [join_eq_append, (precedes_join hdirs).withExtension_hidden hname hold hnew, ← join_eq_append]

theorem withExtension_join_dots (hdirs : ∀ d ∈ directories, IsName d)
    (hname : IsName ('.' :: '.' :: old)) (hold : '.' ∉ old) :
    withExtension new (join (directories ++ ['.' :: '.' :: old])) =
      join (directories ++ [['.', '.']]) := by
  rw [join_eq_append, (precedes_join hdirs).withExtension_dots hname hold, ← join_eq_append]

end

end Stencil.Disk.Pathname
