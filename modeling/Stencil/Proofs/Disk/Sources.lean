import Stencil.Proofs.Disk.Parent

/-!
# Sources

A conversion reads templates and writes targets. Below a directory only files
with the extension of templates are read, and no target has it, so all of them
stay as they are. A file that is given by its path is read whatever its
extension is. Where that is the one of targets, its target can lie where it lies
itself, and then its text is replaced.
-/

namespace Stencil.Disk

open Pathname

namespace Tree

variable {t t' : Tree} {p : Pathname} {l : Location}

/-- A path starts at a node. -/
theorem WellFormed.isSome_origin (ht : t.WellFormed) (p : Pathname) :
    (t.node? (t.origin p)).isSome = true := by
  refine (t.isSome_node? _).mpr (.inl ?_)
  unfold origin
  split
  · exact t.isDirectoryAt_root
  · exact ht.here

/-- A path that leads somewhere leads to a node. -/
theorem WellFormed.isSome_of_follow (ht : t.WellFormed) {found : Location}
    {segments : List (List Char)} (hnode : (t.node? l).isSome = true)
    (h : t.follow l segments = .ok found) : (t.node? found).isSome = true := by
  induction segments generalizing l with
  | nil =>
    cases h
    exact hnode
  | cons segment segments ih =>
    rw [follow] at h
    split at h
    · next hdirectory =>
      split at h
      · exact ih hnode h
      · split at h
        · exact ih ((t.isSome_node? _).mpr (.inl (ht.isDirectoryAt_dropLast hdirectory))) h
        · split at h
          · cases h
          · next hfound => exact ih (by rw [hfound]; rfl) h
    · cases h

/-- The path of a file ends with its name. -/
theorem WellFormed.exists_name (ht : t.WellFormed) (hlocate : t.locate p = .ok l)
    (hfile : (t.file? l).isSome = true) :
    ∃ before name directory, Text.fields '/' p = before ++ [name] ∧ IsName name ∧
      l = directory ++ [name] := by
  obtain ⟨-, hfollow⟩ := locate_eq_ok.mp hlocate
  obtain ⟨content, hcontent⟩ := Option.isSome_iff_exists.mp hfile
  have hdirectory : t.isDirectoryAt l = false := by
    rw [isDirectoryAt, file?_eq_some.mp hcontent]
  obtain ⟨before, last, hfields⟩ : ∃ before last, Text.fields '/' p = before ++ [last] :=
    ⟨_, _, (List.dropLast_concat_getLast (Text.fields_ne_nil '/' p)).symm⟩
  rw [hfields, follow_append] at hfollow
  obtain ⟨directory, -, hlast⟩ := hfollow
  have hslash : '/' ∉ last :=
    Text.not_mem_of_mem_fields (hfields ▸ List.mem_append_right _ List.mem_cons_self)
  rw [follow] at hlast
  split at hlast
  · next hdirectory' =>
    split at hlast
    · cases hlast
      rw [hdirectory] at hdirectory'
      cases hdirectory'
    · next hskipped =>
      split at hlast
      · cases hlast
        rw [ht.isDirectoryAt_dropLast hdirectory'] at hdirectory
        cases hdirectory
      · next hup =>
        split at hlast
        · cases hlast
        · cases hlast
          rw [isSkipped, Bool.or_eq_true, not_or, decide_eq_true_iff,
            decide_eq_true_iff] at hskipped
          exact ⟨before, last, directory, hfields, ⟨hskipped.1, hskipped.2, hup, hslash⟩, rfl⟩
  · cases hlast

/-- What is written to a path is found there. -/
theorem Within.locate_place {places : List Location} (h : Within places t t')
    {directory : Location} {name : List Char}
    (hplace : t.place p = .ok ⟨directory, some name, false⟩)
    (hnode : (t'.node? (directory ++ [name])).isSome = true) :
    t'.locate p = .ok (directory ++ [name]) := by
  obtain ⟨hname, hdirectory⟩ := isName_of_place hplace
  have hstart : t'.start p = t.start p := by
    unfold start
    rw [h.here]
  unfold place at hplace
  split at hplace
  · cases hplace
  · next hrefusal =>
    dsimp only at hplace
    split at hplace
    · cases hplace
    · next last before hsegments =>
      obtain ⟨found, hfound, hplace⟩ := Except.bind_eq_ok hplace
      split at hplace
      · split at hplace
        · cases hplace
        · simp only [Except.ok.injEq, Place.mk.injEq, Option.some.injEq,
            decide_eq_false_iff_not] at hplace
          obtain ⟨rfl, rfl, hslash⟩ := hplace
          -- No slash stands at the end, so the name is the last segment.
          have hall : (t.start p).2.reverse = last :: before := by
            rw [← hsegments, eq_comm, List.dropWhile_eq_self_iff]
            intro hpos
            rw [List.getLast?_eq_head?_reverse, List.head?_eq_getElem?,
              List.getElem?_eq_getElem hpos] at hslash
            simpa using hslash
          rw [List.reverse_eq_iff, List.reverse_cons] at hall
          rw [Tree.locate, hrefusal]
          dsimp only
          rw [hstart, hall, follow_append]
          exact ⟨found, h.follow hfound, follow_name (h.directories _ hdirectory) hname hnode⟩
      · cases hplace

end Tree

section
variable {t t' : Tree} {o : Options} {root : Option Pathname} {p : Pathname}

/-- A template is left as it is, or its text is what is found at its target. -/
theorem convertFile_outcome {result : Except Failure Converted}
    (h : convertFile t o root p = (result, t')) :
    (∃ e, result = .error e) ∧ Tree.Within [] t t' ∨
      ∃ text d target l, document t o p = .ok (text, d) ∧ target? o p root = some target ∧
        result = .ok ⟨p, target, d.diagnostics⟩ ∧ t'.locate target = .ok l ∧
          Tree.Within [l] t t' ∧ t'.file? l = some text.toUTF8 := by
  unfold convertFile at h
  split at h
  · cases h
    exact .inl ⟨⟨_, rfl⟩, .refl t⟩
  · next text d hdocument =>
    split at h
    · cases h
      exact .inl ⟨⟨_, rfl⟩, .refl t⟩
    · next target htarget =>
      cases hdeliver : deliver t target text with
      | mk delivered after =>
        rw [hdeliver] at h
        obtain ⟨e, rfl, -, hmade⟩ |
          ⟨rfl, directory, name, middle, hplace, hmade, hwritten, hfile⟩ := deliver_cases hdeliver
        · cases h
          exact .inl ⟨⟨_, rfl⟩, hmade⟩
        · cases h
          have hnode : (t'.node? (directory ++ [name])).isSome = true := by
            rw [Tree.file?_eq_some.mp hfile]
            rfl
          exact .inr ⟨text, d, target, _, hdocument, htarget, rfl,
            hwritten.locate_place hplace hnode, hmade.trans hwritten, hfile⟩

/-- A file whose target leads to the file itself has the extension of targets. -/
theorem extension?_of_locate_target (ho : Separate o) (ht : t.WellFormed) (ht' : t'.WellFormed)
    {l : Location} {target : Pathname} (hlocate : t.locate p = .ok l)
    (hfile : (t.file? l).isSome = true) (htarget : target? o p (parent? p) = some target)
    (hlocate' : t'.locate target = .ok l) (hfile' : (t'.file? l).isSome = true) :
    extension? p = some o.targetExtension.toList := by
  obtain ⟨before, name, directory, hfields, hname, rfl⟩ := ht.exists_name hlocate hfile
  obtain ⟨text, lead, segments, rfl, htext, hprecedes⟩ := exists_precedes hfields
  obtain ⟨renamed, hrenamed, htarget'⟩ := exists_target?_parent ho hprecedes htext hname
  cases htarget.symm.trans htarget'
  obtain ⟨before', name', directory', hfields', hname', heq⟩ := ht'.exists_name hlocate' hfile'
  obtain rfl : name = name' := List.singleton_inj.mp (List.append_inj' heq rfl).2
  obtain rfl : renamed = name := by
    rw [fields_opened_append, Text.fields_of_not_mem (hrenamed.not_skipped ho hname).2] at hfields'
    exact List.singleton_inj.mp (List.append_inj' hfields' rfl).2
  rw [extension?, hprecedes.fileName? hname, Option.bind_some]
  exact splitName_of_eq ho.dot (hrenamed.resolve_left hname.ne_up)

/-- Next to its source, a file with the extension of targets has the file itself for its target. -/
theorem target?_self (ho : Separate o) (ho' : o.outDir = none) (ht : t.WellFormed)
    (ht' : t'.WellFormed) {l l' : Location} {target : Pathname} (hlocate : t.locate p = .ok l)
    (hfile : (t.file? l).isSome = true) (hp : extension? p = some o.targetExtension.toList)
    (htarget : target? o p (parent? p) = some target) (hlocate' : t'.locate target = .ok l')
    (hfile' : (t'.file? l').isSome = true) : target = p := by
  obtain ⟨before, name, directory, hfields, hname, rfl⟩ := ht.exists_name hlocate hfile
  obtain ⟨text, lead, segments, rfl, htext, hprecedes⟩ := exists_precedes hfields
  obtain ⟨renamed, hrenamed, htarget'⟩ := exists_target?_parent ho hprecedes htext hname
  cases htarget.symm.trans htarget'
  rw [extension?, hprecedes.fileName? hname, Option.bind_some] at hp
  obtain ⟨stem, hstem, hdot, rfl⟩ := splitName_eq_some hp
  obtain ⟨before', name', directory', hfields', hname', -⟩ := ht'.exists_name hlocate' hfile'
  rw [fields_opened_append, Text.fields_of_not_mem (hrenamed.not_skipped ho hname).2] at hfields'
  obtain rfl : renamed = name' := List.singleton_inj.mp (List.append_inj' hfields' rfl).2
  rw [hrenamed.resolve_left hname'.ne_up, splitName_append hstem hdot, ho', Option.map_none,
    Option.getD_none, htext]

end

/-- A file that is given by its path has the extension of targets, and a text that is not its own
is written where it lies. -/
structure Overwritten (t t' : Tree) (o : Options) (p : Pathname)
    (result : Except Failure (List Converted)) : Prop where
  file : t.isFile p = true
  extension : extension? p = some o.targetExtension.toList
  written : ∃ c text d, result = .ok [c] ∧ document t o p = .ok (text, d) ∧
    t'.locate c.target = t.locate p ∧ t.read p ≠ .ok text

section
variable {t t' : Tree} {o : Options} {p : Pathname} {result : Except Failure (List Converted)}

theorem wellFormed_convertPath (ht : t.WellFormed) (h : convertPath t o p = (result, t')) :
    t'.WellFormed := by
  have hreaches := reaches_convertPath t o p
  rw [h] at hreaches
  exact ht.run hreaches

theorem convertPath_of_isFile (hfile : t.isFile p = true) :
    convertPath t o p = match convertFile t o (parent? p) p with
      | (.error e, t) => (.error e, t)
      | (.ok c, t) => (.ok [c], t) := by
  rw [convertPath, if_pos hfile, convertFiles]
  rcases convertFile t o (parent? p) p with ⟨_ | _, _⟩ <;> rfl

theorem templateFiles_of_isFile (hfile : t.isFile p = true) : templateFiles t o p = .ok [p] :=
  if_pos hfile

/-- Templates are listed for files and directories only. -/
theorem isDirectory_of_templateFiles (ht : t.WellFormed) (hfile : ¬ t.isFile p = true)
    {files : List Pathname} (h : templateFiles t o p = .ok files) : t.isDirectory p = true := by
  rw [templateFiles, if_neg hfile] at h
  cases hlocate : t.locate p with
  | error e =>
    rw [hlocate] at h
    cases h
  | ok l =>
    obtain ⟨-, hfollow⟩ := Tree.locate_eq_ok.mp hlocate
    have hnode := ht.isSome_of_follow (ht.isSome_origin p) hfollow
    obtain hdirectory | hcontent := (t.isSome_node? l).mp hnode
    · rw [Tree.isDirectory, Tree.stat, hlocate]
      simp only [Bind.bind, Except.bind, Tree.isDirectoryAt_iff.mp hdirectory]
    · obtain ⟨content, hcontent⟩ := Option.isSome_iff_exists.mp hcontent
      rw [Tree.isFile, Tree.stat_of_locate hlocate hcontent] at hfile
      exact absurd rfl hfile

/-- A file's text is what it was exactly if its bytes are. -/
theorem read_eq_ok_iff {l : Location} {content : ByteArray} (hlocate : t.locate p = .ok l)
    (hfile : t.file? l = some content) (text : String) :
    t.read p = .ok text ↔ content = text.toUTF8 := by
  rw [Tree.read_of_locate hlocate hfile, String.fromUTF8?]
  split
  · next decoded hdecoded =>
    split at hdecoded
    · cases hdecoded
      rw [Except.ok.injEq]
      exact ⟨fun h => h ▸ rfl, fun h => String.toByteArray_inj.mp h⟩
    · cases hdecoded
  · next hdecoded =>
    split at hdecoded
    · cases hdecoded
    · next hvalid =>
      refine iff_of_false (by simp) fun h => hvalid ?_
      rw [h]
      exact text.isValidUTF8

/-- A file that is given by its path is as it was unless it is overwritten. -/
theorem stat_eq_iff_of_isFile (ht : t.WellFormed) (ho : Separate o) (hfile : t.isFile p = true)
    (h : convertPath t o p = (result, t')) :
    t'.stat p = t.stat p ↔ ¬ Overwritten t t' o p result := by
  obtain ⟨l, content, hlocate, hcontent⟩ := Tree.exists_file hfile
  have ht' := wellFormed_convertPath ht h
  have hsome : (t.file? l).isSome = true := by rw [hcontent]; rfl
  rw [convertPath_of_isFile hfile] at h
  cases hconvert : convertFile t o (parent? p) p with
  | mk converted after =>
    rw [hconvert] at h
    obtain ⟨⟨e, rfl⟩, hwithin⟩ |
      ⟨text, d, target, place, hdocument, htarget, rfl, hplace, hwithin, hwritten⟩ :=
      convertFile_outcome hconvert
    · cases h
      refine iff_of_true ?_ fun hover => ?_
      · rw [Tree.stat_of_locate hlocate hcontent, Tree.stat_of_locate (hwithin.locate hlocate)]
        rw [hwithin.files l List.not_mem_nil, hcontent]
      · obtain ⟨c, text, d, hresult, -⟩ := hover.written
        cases hresult
    · cases h
      have hlater := hwithin.locate hlocate
      have hread := read_eq_ok_iff hlocate hcontent text
      rw [Tree.stat_of_locate hlocate hcontent]
      by_cases hself : place = l
      · subst hself
        have hextension := extension?_of_locate_target ho ht ht' hlocate hsome htarget hplace
          (by rw [hwritten]; rfl)
        rw [Tree.stat_of_locate hlater hwritten, Except.ok.injEq, Node.file.injEq]
        refine ⟨fun heq hover => ?_, fun hover => ?_⟩
        · obtain ⟨c, text', d', -, hdocument', -, hne⟩ := hover.written
          cases hdocument.symm.trans hdocument'
          exact hne (hread.mpr heq.symm)
        · by_contra hne
          exact hover ⟨hfile, hextension, _, text, d, rfl, hdocument, hplace.trans hlocate.symm,
            fun heq => hne (hread.mp heq).symm⟩
      · refine iff_of_true ?_ fun hover => ?_
        · refine Tree.stat_of_locate hlater ?_
          rw [hwithin.files l (by simpa using Ne.symm hself), hcontent]
        · obtain ⟨c, text', d', hresult, -, htarget', -⟩ := hover.written
          cases hresult
          rw [hlocate, hplace] at htarget'
          cases htarget'
          exact hself rfl

/-- Without an output directory, a file that is given by its path is overwritten whenever it has the
extension of targets and is converted to another text. -/
theorem overwritten_iff_of_outDir_eq_none (ht : t.WellFormed) (ho : Separate o)
    (ho' : o.outDir = none) (h : convertPath t o p = (result, t')) :
    Overwritten t t' o p result ↔
      t.isFile p = true ∧ extension? p = some o.targetExtension.toList ∧
        ∃ converted text d, result = .ok converted ∧ document t o p = .ok (text, d) ∧
          t.read p ≠ .ok text := by
  constructor
  · intro hover
    obtain ⟨c, text, d, hresult, hdocument, -, hne⟩ := hover.written
    exact ⟨hover.file, hover.extension, [c], text, d, hresult, hdocument, hne⟩
  · rintro ⟨hfile, hextension, converted, text, d, rfl, hdocument, hne⟩
    obtain ⟨l, content, hlocate, hcontent⟩ := Tree.exists_file hfile
    have ht' := wellFormed_convertPath ht h
    rw [convertPath_of_isFile hfile] at h
    cases hconvert : convertFile t o (parent? p) p with
    | mk outcome after =>
      rw [hconvert] at h
      obtain ⟨⟨e, rfl⟩, -⟩ |
        ⟨text', d', target, place, -, htarget, rfl, hplace, hwithin, hwritten⟩ :=
        convertFile_outcome hconvert
      · cases h
      · cases h
        obtain rfl := target?_self ho ho' ht ht' hlocate (by rw [hcontent]; rfl) hextension htarget
          hplace (by rw [hwritten]; rfl)
        refine ⟨hfile, hextension, _, text, d, rfl, hdocument, ?_, hne⟩
        rw [hlocate]
        exact hwithin.locate hlocate

/-- Templates are as they were after a conversion, whether it ends well or not, unless the path is
that of a file which is overwritten. -/
theorem kept_iff_not_overwritten (ht : t.WellFormed) (ho : Separate o)
    (h : convertPath t o p = (result, t')) :
    (∀ files, templateFiles t o p = .ok files → ∀ f ∈ files, t'.stat f = t.stat f) ↔
      ¬ Overwritten t t' o p result := by
  by_cases hfile : t.isFile p = true
  · rw [← stat_eq_iff_of_isFile ht ho hfile h, templateFiles_of_isFile hfile]
    simp
  · refine iff_of_true (fun files hfiles => ?_) fun hover => hfile hover.file
    have hdirectory := isDirectory_of_templateFiles ht hfile hfiles
    rw [convertPath_of_isDirectory hdirectory, hfiles] at h
    dsimp only at h
    rw [← List.take_length (l := files)] at h
    obtain ⟨jobs, -, -, -, hkept, -⟩ := convertFiles_take ht ho hdirectory hfiles h
    exact hkept

end

/-- A template that is named like a target. -/
def page : Tree :=
  ({} : Tree).set ["page.html".toList] (.file "\x7b\x7ba\x7d\x7d".toUTF8)

theorem not_kept_page :
    ¬ ∀ files, templateFiles page {} "page.html".toList = .ok files →
      ∀ f ∈ files, (convertPath page {} "page.html".toList).2.stat f = page.stat f := by
  have ho : Separate {} := ⟨by decide, by decide, by decide, by decide⟩
  have hpage : page.WellFormed := by decide +kernel
  have hresult : (convertPath page {} "page.html".toList).1.toOption.isSome = true := by
    decide +kernel
  have htext : (document page {} "page.html".toList).toOption.any
      (fun pair => page.read "page.html".toList ≠ .ok pair.1) = true := by
    decide +kernel
  cases hconverted : (convertPath page {} "page.html".toList).1 with
  | error e =>
    rw [hconverted] at hresult
    cases hresult
  | ok converted =>
    cases hdocument : document page {} "page.html".toList with
    | error e =>
      rw [hdocument] at htext
      cases htext
    | ok pair =>
      rw [hdocument] at htext
      have hover : Overwritten page _ {} "page.html".toList _ :=
        (overwritten_iff_of_outDir_eq_none hpage ho rfl rfl).mpr ⟨by decide +kernel,
          by decide +kernel, converted, pair.1, pair.2, hconverted, hdocument,
          of_decide_eq_true htext⟩
      exact fun h => (kept_iff_not_overwritten hpage ho rfl).mp h hover

end Stencil.Disk
