import Stencil.Proofs.Cache
import Stencil.Proofs.Disk.Changes
import Stencil.Proofs.Disk.Walk

/-!
# Converting a directory

Templates are converted one after the other, in a tree that changes with each of
them. No target has the extension of templates, and no two templates have one
target, so every template is found as it was at the start and every target as it
was written. A template that cannot be converted ends the conversion before
anything is done for it.
-/

namespace Stencil.Disk

open Pathname

/-- The target extension is one that no template has. -/
structure Separate (o : Options) : Prop where
  ne : o.targetExtension ≠ o.sourceExtension
  ne_empty : o.targetExtension ≠ ""
  dot : '.' ∉ o.targetExtension.toList
  slash : '/' ∉ o.targetExtension.toList

/-- Whether a failure comes from making directories or from writing. -/
def Failure.isDelivery : Failure → Bool
  | create .. => true
  | write .. => true
  | _ => false

theorem within_prepare (t : Tree) (target : Pathname) : Tree.Within [] t (prepare t target).2 :=
  prepare_keeps (P := Tree.Within [] t) (fun h hmake => h.trans (Tree.within_makeDirectory hmake))
    (.refl t) target

theorem isDelivery_of_prepare {t : Tree} {target : Pathname} {e : Failure}
    (h : (prepare t target).1 = .error e) : e.isDelivery = true := by
  unfold prepare at h
  split at h
  · cases h
  · split at h
    · cases h
      rfl
    · cases h

/-- A delivery fails, where only directories have been made, or writes one file. -/
theorem deliver_cases {t t' : Tree} {target : Pathname} {text : String}
    {result : Except Failure Unit} (h : deliver t target text = (result, t')) :
    (∃ e, result = .error e ∧ e.isDelivery = true ∧ Tree.Within [] t t') ∨
      result = .ok () ∧ ∃ directory name middle,
        middle.place target = .ok ⟨directory, some name, false⟩ ∧ Tree.Within [] t middle ∧
          Tree.Within [directory ++ [name]] middle t' ∧
            t'.file? (directory ++ [name]) = some text.toUTF8 := by
  have hmade := within_prepare t target
  unfold deliver at h
  split at h
  · next e middle hprepare =>
    rw [hprepare] at hmade
    cases h
    exact .inl ⟨e, rfl, isDelivery_of_prepare (by rw [hprepare]), hmade⟩
  · next middle hprepare =>
    rw [hprepare] at hmade
    split at h
    · cases h
      exact .inl ⟨_, rfl, rfl, hmade⟩
    · next hwrite =>
      cases h
      obtain ⟨directory, name, hplace, hfree, rfl⟩ := Tree.write_eq_ok hwrite
      exact .inr ⟨rfl, directory, name, middle, hplace, hmade,
        Tree.within_set_file (by simp) hfree _⟩

def targetRoot (o : Options) (root : Pathname) : Pathname :=
  (o.outDir.map String.toList).getD root

/-- A template that has been converted: where it was, what it held, its document, and where that
was written. -/
structure Job where
  stem : Stem
  source : String
  document : Document
  place : Location

namespace Job

def path (o : Options) (root : Pathname) (job : Job) : Pathname :=
  job.stem.template o root

def target (o : Options) (root : Pathname) (job : Job) : Pathname :=
  job.stem.path (targetRoot o root) o.targetExtension.toList

def text (o : Options) (job : Job) : String :=
  job.document.text o job.source

def converted (o : Options) (root : Pathname) (job : Job) : Converted where
  source := job.path o root
  target := job.target o root
  diagnostics := job.document.diagnostics

/-- The target lies below the directory of all targets as the template lies below the root. -/
def Below (o : Options) (root : Pathname) (t : Tree) (job : Job) : Prop :=
  ∃ base, t.follow (t.origin (targetRoot o root)) (front (targetRoot o root)) = .ok base ∧
    job.place = base ++ job.stem.names o.targetExtension.toList

/-- What holds of a job that was begun in one tree, as seen in a later one. -/
structure Done (o : Options) (root : Pathname) (t t' : Tree) (job : Job) : Prop where
  read : t.read (job.path o root) = .ok job.source
  document : Document.ofSource o job.source = .ok job.document
  target : target? o (job.path o root) (some root) = some (job.target o root)
  located : t'.locate (job.target o root) = .ok job.place
  written : t'.file? job.place = some (job.text o).toUTF8
  below : job.Below o root t'

end Job

theorem document_eq_ok {t : Tree} {o : Options} {p : Pathname} {text : String} {d : Document}
    (h : document t o p = .ok (text, d)) :
    ∃ source, t.read p = .ok source ∧ Document.ofSource o source = .ok d ∧
      text = d.text o source := by
  unfold document at h
  split at h
  · cases h
  · next source hread =>
    split at h
    · cases h
    · next d hd =>
      cases h
      exact ⟨source, hread, hd, rfl⟩

section
variable {s : Stem} {old new : List Char} (hs : s.Spelled old) (hslash : '/' ∉ new)
variable (hnew : new ≠ []) {t t' : Tree} {d : Pathname} {directory : Location} {name : List Char}
variable {slash : Bool}
include hs hslash hnew

/-- Where a renamed template can be written, its name is a file's. -/
theorem Stem.Spelled.renamed_eq_names
    (h : t.place (opened d ++ join (s.renamed new)) = .ok ⟨directory, some name, slash⟩) :
    s.renamed new = s.names new := by
  refine if_neg fun hdot => ?_
  have hfields := hs.fields_renamed hslash hnew d
  rw [Stem.renamed, if_pos hdot] at h hfields
  rw [← List.append_assoc] at hfields
  exact absurd rfl (Tree.place_eq_ok hfields (by decide) h).2.2.1

/-- What is written to the path of a stem is found there, below the directory that the path
starts with. -/
theorem Stem.Spelled.locate_written
    (h : t.place (opened d ++ join (s.renamed new)) = .ok ⟨directory, some name, slash⟩)
    {places : List Location} (hwithin : Tree.Within places t t')
    (hnode : (t'.node? (directory ++ [name])).isSome = true) :
    t'.locate (s.path d new) = .ok (directory ++ [name]) ∧
      ∃ base, t'.follow (t'.origin d) (front d) = .ok base ∧
        directory ++ [name] = base ++ s.names new := by
  have hnames := hs.renamed_eq_names hslash hnew h
  have hfields := hs.fields_renamed hslash hnew d
  have hhead := hs.head?_join_renamed hslash hnew
  rw [hnames] at h hfields hhead
  rw [Stem.names] at hfields
  rw [← List.append_assoc] at hfields
  obtain ⟨hrefusal, rfl, -, hfollow, hdirectory⟩ := Tree.place_eq_ok hfields (by simp) h
  have hfile : IsName (s.name ++ '.' :: new) :=
    hs.isName_of_mem_names hslash hnew (List.mem_append_right _ List.mem_cons_self)
  have hlater := hwithin.follow hfollow
  rw [← hwithin.origin] at hlater
  constructor
  · refine Tree.locate_eq_ok.mpr ⟨hrefusal, ?_⟩
    rw [Stem.path, Stem.names, hfields, Tree.follow_append]
    exact ⟨directory, hlater, Tree.follow_name (hwithin.directories _ hdirectory) hfile hnode⟩
  · have horigin : t'.origin (opened d ++ join (s.names new)) = t'.origin d :=
      Tree.origin_opened hhead
    rw [Stem.names] at horigin
    rw [horigin, Tree.follow_append] at hlater
    obtain ⟨base, hbase, hbelow⟩ := hlater
    refine ⟨base, hbase, ?_⟩
    rw [Tree.eq_append_of_follow hs.directories hbelow, List.append_assoc, Stem.names]

/-- Where a renamed template's path leads to a file, it leads below the directory that it starts
with. -/
theorem Stem.Spelled.file?_of_locate (ht : t.WellFormed) {l : Location}
    (h : t.locate (opened d ++ join (s.renamed new)) = .ok l) :
    t.file? l = none ∨
      ∃ base, t.follow (t.origin d) (front d) = .ok base ∧ l = base ++ s.names new := by
  obtain ⟨-, hfollow⟩ := Tree.locate_eq_ok.mp h
  rw [Tree.origin_opened (hs.head?_join_renamed hslash hnew), hs.fields_renamed hslash hnew,
    Tree.follow_append] at hfollow
  obtain ⟨base, hbase, hfollow⟩ := hfollow
  rw [Stem.renamed] at hfollow
  split at hfollow
  · -- Two dots lead to a directory.
    obtain ⟨middle, -, hup⟩ := Tree.follow_append.mp hfollow
    rw [Tree.follow] at hup
    split at hup
    · next hdirectory =>
      cases hup
      left
      rw [Tree.file?, Tree.isDirectoryAt_iff.mp (ht.isDirectoryAt_dropLast hdirectory)]
    · cases hup
  · exact .inr ⟨base, hbase, Tree.eq_append_of_follow
      (fun name => hs.isName_of_mem_names hslash hnew) hfollow⟩

end

section
variable {t t' : Tree} {o : Options} {root : Pathname} {top : Location} {s : Stem}

/-- A template is not converted, cannot be delivered, or is a job that is done. -/
theorem convertFile_cases (ho : Separate o) (hroot : root ≠ [])
    (hs : s.Spelled o.sourceExtension.toList) {result : Except Failure Converted}
    (h : convertFile t o (some root) (s.template o root) = (result, t')) :
    (∃ e, result = .error e ∧ Tree.Within [] t t' ∧
      (document t o (s.template o root) = .error e ∨ e.isDelivery = true)) ∨
    ∃ job : Job, job.stem = s ∧ result = .ok (job.converted o root) ∧
      Tree.Within [job.place] t t' ∧ job.Done o root t t' := by
  have hnew : o.targetExtension.toList ≠ [] := by simpa using ho.ne_empty
  have htarget := hs.target?_template hroot hnew ho.slash
  unfold convertFile at h
  split at h
  · next e hdocument =>
    cases h
    exact .inl ⟨e, rfl, .refl _, .inl hdocument⟩
  · next text d hdocument =>
    obtain ⟨source, hread, hd, rfl⟩ := document_eq_ok hdocument
    rw [htarget] at h
    dsimp only at h
    cases hdeliver : deliver t (opened ((o.outDir.map String.toList).getD root) ++
        join (s.renamed o.targetExtension.toList)) (d.text o source) with
    | mk delivered after =>
      rw [hdeliver] at h
      obtain ⟨e, rfl, hdelivery, hmade⟩ |
        ⟨rfl, directory, name, middle, hplace, hmade, hwritten, hfile⟩ := deliver_cases hdeliver
      · cases h
        exact .inl ⟨e, rfl, hmade, .inr hdelivery⟩
      · have hnode : (after.node? (directory ++ [name])).isSome = true := by
          rw [Tree.file?_eq_some.mp hfile]
          rfl
        obtain ⟨hlocated, hbelow⟩ := hs.locate_written ho.slash hnew hplace hwritten hnode
        rw [hs.renamed_eq_names ho.slash hnew hplace] at htarget h
        cases h
        exact .inr ⟨⟨s, source, d, directory ++ [name]⟩, rfl, rfl, hmade.trans hwritten, hread, hd,
          htarget, hlocated, hfile, hbelow⟩

/-- A listed template stays one while files are written. -/
theorem Listed.within {places : List Location} (hwithin : Tree.Within places t t')
    (h : Listed t o root top s) : Listed t' o root top s where
  spelled := h.spelled
  located := hwithin.locate h.located
  present := hwithin.present _ h.present

/-- No target lies where a template does. -/
theorem names_ne (ho : Separate o) {other : Stem} (hs : s.Spelled o.sourceExtension.toList)
    (hother : other.name ≠ []) (base : Location) :
    top ++ s.names o.sourceExtension.toList ≠ base ++ other.names o.targetExtension.toList := by
  intro heq
  rw [Stem.names, Stem.names, ← List.append_assoc, ← List.append_assoc] at heq
  have hlast := List.singleton_inj.mp (List.append_inj' heq rfl).2
  have hsplit := congrArg (fun name => (splitName name).2) hlast
  rw [splitName_append hs.ne_nil hs.dot, splitName_append hother ho.dot] at hsplit
  exact ho.ne (String.toList_inj.mp (Option.some.inj hsplit)).symm

theorem read_of_stat_eq {p : Pathname} (h : t'.stat p = t.stat p) : t'.read p = t.read p := by
  rw [Tree.read, Tree.read, h]

theorem document_of_stat_eq {p : Pathname} (h : t'.stat p = t.stat p) :
    document t' o p = document t o p := by
  rw [document, document, read_of_stat_eq h]

/-- A template is as it was while jobs are done. -/
theorem Listed.kept (h : Listed t o root top s) (ho : Separate o) {jobs : List Job}
    (hwithin : Tree.Within (jobs.map (·.place)) t t')
    (hjobs : ∀ job ∈ jobs, job.Below o root t' ∧ job.stem.name ≠ []) :
    t'.stat (s.template o root) = t.stat (s.template o root) := by
  have hplaces : top ++ s.names o.sourceExtension.toList ∉ jobs.map (·.place) := by
    intro hplace
    obtain ⟨job, hjob, heq⟩ := List.mem_map.mp hplace
    obtain ⟨⟨base, -, hbelow⟩, hname⟩ := hjobs job hjob
    exact names_ne ho h.spelled hname base (heq.symm.trans hbelow)
  obtain ⟨content, hcontent⟩ := Option.isSome_iff_exists.mp h.present
  rw [Tree.stat_of_locate h.located hcontent, Tree.stat_of_locate (hwithin.locate h.located)]
  rw [hwithin.files _ hplaces, hcontent]

theorem Stem.names_injective {extension : List Char} {other : Stem}
    (h : s.names extension = other.names extension) : s = other := by
  obtain ⟨hdirectories, hname⟩ := List.append_inj' h rfl
  have hname := List.append_cancel_right (List.singleton_inj.mp hname)
  obtain ⟨directories, name⟩ := s
  cases hdirectories
  cases hname
  rfl

theorem Job.Below.later {job : Job} (h : job.Below o root t) {places : List Location}
    (hwithin : Tree.Within places t t') : job.Below o root t' := by
  obtain ⟨base, hbase, hplace⟩ := h
  refine ⟨base, ?_, hplace⟩
  rw [hwithin.origin]
  exact hwithin.follow hbase

/-- Two jobs have one place only if they have one stem. -/
theorem Job.Below.stem_eq {first second : Job} (h : first.Below o root t)
    (h' : second.Below o root t) (hplace : first.place = second.place) :
    first.stem = second.stem := by
  obtain ⟨base, hbase, hfirst⟩ := h
  obtain ⟨base', hbase', hsecond⟩ := h'
  cases hbase.symm.trans hbase'
  rw [hfirst, hsecond] at hplace
  exact Stem.names_injective (List.append_cancel_left hplace)

/-- A job stays done while files are written elsewhere. -/
theorem Job.Done.later {job : Job} {t'' : Tree} (h : job.Done o root t t')
    {places : List Location} (hwithin : Tree.Within places t' t'') (hplaces : job.place ∉ places) :
    job.Done o root t t'' where
  read := h.read
  document := h.document
  target := h.target
  located := hwithin.locate h.located
  written := by rw [hwithin.files _ hplaces, h.written]
  below := h.below.later hwithin

theorem convertFiles_cases (ho : Separate o) (hroot : root ≠ []) {stems : List Stem}
    (hnodup : stems.Nodup) (hlisted : ∀ s ∈ stems, Listed t o root top s)
    {result : Except Failure (List Converted)}
    (h : convertFiles t o (some root) (stems.map (·.template o root)) = (result, t')) :
    ∃ jobs : List Job, jobs.map (·.stem) = stems.take jobs.length ∧
      Tree.Within (jobs.map (·.place)) t t' ∧ (∀ job ∈ jobs, job.Done o root t t') ∧
      (result = .ok (jobs.map (·.converted o root)) ∧ jobs.length = stems.length ∨
        ∃ s e, stems[jobs.length]? = some s ∧ result = .error e ∧
          (document t o (s.template o root) = .error e ∨ e.isDelivery = true)) := by
  induction stems generalizing t result with
  | nil =>
    cases h
    exact ⟨[], rfl, .refl _, nofun, .inl ⟨rfl, rfl⟩⟩
  | cons s stems ih =>
    rw [List.nodup_cons] at hnodup
    rw [List.forall_mem_cons] at hlisted
    rw [List.map_cons, convertFiles] at h
    cases hfirst : convertFile t o (some root) (s.template o root) with
    | mk converted middle =>
      rw [hfirst] at h
      obtain ⟨e, rfl, hmade, hfailed⟩ | ⟨job, rfl, rfl, hwithin, hdone⟩ :=
        convertFile_cases ho hroot hlisted.1.spelled hfirst
      · cases h
        exact ⟨[], rfl, hmade, nofun, .inr ⟨s, e, rfl, rfl, hfailed⟩⟩
      · have hplaces : Tree.Within ([job].map (·.place)) t middle := hwithin
        have hkept := fun other hother => (hlisted.2 other hother).kept ho hplaces
          (List.forall_mem_singleton.mpr ⟨hdone.below, hlisted.1.spelled.ne_nil⟩)
        cases hrest : convertFiles middle o (some root) (stems.map (·.template o root)) with
        | mk more after =>
          dsimp only at h
          rw [hrest] at h
          have hafter : after = t' := by cases more <;> cases h <;> rfl
          subst hafter
          obtain ⟨jobs, hstems, hlater, hjobs, hresult⟩ :=
            ih hnodup.2 (fun other hother => (hlisted.2 other hother).within hwithin) hrest
          have hmem : ∀ other ∈ jobs, other.stem ∈ stems := fun other hother =>
            List.mem_of_mem_take (hstems ▸ List.mem_map_of_mem hother)
          have hplace : job.place ∉ jobs.map (·.place) := by
            intro hplace
            obtain ⟨other, hother, heq⟩ := List.mem_map.mp hplace
            have hstem := (hjobs other hother).below.stem_eq (hdone.below.later hlater) heq
            exact hnodup.1 (hstem ▸ hmem other hother)
          refine ⟨job :: jobs, ?_, hwithin.trans hlater, ?_, ?_⟩
          · rw [List.map_cons, hstems, List.length_cons, List.take_succ_cons]
          · rw [List.forall_mem_cons]
            refine ⟨hdone.later hlater hplace, fun other hother => ?_⟩
            have hread := read_of_stat_eq (hkept other.stem (hmem other hother))
            exact { hjobs other hother with read := hread ▸ (hjobs other hother).read }
          · obtain ⟨rfl, hlength⟩ | ⟨other, e, hother, rfl, hfailed⟩ := hresult
            · cases h
              exact .inl ⟨rfl, by rw [List.length_cons, hlength, List.length_cons]⟩
            · cases h
              refine .inr ⟨other, e, hother, rfl, ?_⟩
              rwa [document_of_stat_eq (hkept other (List.mem_of_getElem? hother))] at hfailed

theorem convertFiles_append {root : Option Pathname} {before after : List Pathname}
    {converted : List Converted} {middle : Tree} {e : Failure}
    (hbefore : convertFiles t o root before = (.ok converted, middle))
    (hafter : convertFiles middle o root after = (.error e, t')) :
    convertFiles t o root (before ++ after) = (.error e, t') := by
  induction before generalizing t converted with
  | nil =>
    cases hbefore
    exact hafter
  | cons p before ih =>
    rw [convertFiles] at hbefore
    rw [List.cons_append, convertFiles]
    split at hbefore
    · cases hbefore
    · split at hbefore
      · cases hbefore
      · next hrest =>
        cases hbefore
        rw [ih hrest]

theorem Job.Done.document_eq {job : Job} (h : job.Done o root t t') :
    Disk.document t o (job.path o root) = .ok (job.text o, job.document) := by
  simp only [Disk.document, h.read, h.document]
  rfl

/-- What a job has written is the text of its document. -/
theorem Job.Done.read_target {job : Job} (h : job.Done o root t t') :
    t'.read (job.target o root) = .ok (job.text o) := by
  have hvalid : (job.text o).toUTF8.IsValidUTF8 := (job.text o).isValidUTF8
  rw [Tree.read_of_locate h.located h.written, String.fromUTF8?, dif_pos hvalid]
  rfl

/-- What stands at the target of a template stands there while others are converted. -/
theorem Listed.target_kept (h : Listed t o root top s) (ho : Separate o) (hroot : root ≠ [])
    (ht' : t'.WellFormed) {jobs : List Job} (hwithin : Tree.Within (jobs.map (·.place)) t t')
    (hjobs : ∀ job ∈ jobs, job.Below o root t' ∧ job.stem ≠ s) {target : Pathname} {l : Location}
    (htarget : target? o (s.template o root) (some root) = some target)
    (hl : t'.locate target = .ok l) : t'.file? l = t.file? l := by
  have hnew : o.targetExtension.toList ≠ [] := by simpa using ho.ne_empty
  rw [h.spelled.target?_template hroot hnew ho.slash] at htarget
  cases htarget
  obtain hnone | ⟨base, hbase, rfl⟩ := h.spelled.file?_of_locate ho.slash hnew ht' hl
  · rw [hnone, eq_comm, ← Option.not_isSome_iff_eq_none]
    intro hsome
    have hsome := hwithin.present l hsome
    rw [hnone] at hsome
    cases hsome
  · refine hwithin.files _ fun hplace => ?_
    obtain ⟨job, hjob, hplace⟩ := List.mem_map.mp hplace
    obtain ⟨⟨base', hbase', hbelow⟩, hne⟩ := hjobs job hjob
    cases hbase.symm.trans hbase'
    rw [hbelow] at hplace
    exact hne (Stem.names_injective (List.append_cancel_left hplace))

/-- The programs that are kept while jobs are done cannot be seen. -/
theorem run_handOut {jobs : List Job} (h : ∀ job ∈ jobs, job.Done o root t t')
    (digest : String → UInt64) :
    (Cache.run digest .empty (jobs.map fun job =>
      .handOut o (String.ofList (job.path o root)) job.source)).1 =
      jobs.map fun job => .text (.ok (job.text o, job.document.diagnostics)) := by
  have hdistinct : Cache.Distinguishes digest
      (jobs.map fun job => (String.ofList (job.path o root), job.source)) := by
    intro first hfirst second hsecond hname _
    obtain ⟨job, hjob, rfl⟩ := List.mem_map.mp hfirst
    obtain ⟨other, hother, rfl⟩ := List.mem_map.mp hsecond
    have hpath : job.path o root = other.path o root := String.ofList_inj.mp hname
    have hread := (h job hjob).read
    rw [hpath, (h other hother).read] at hread
    exact (Except.ok.inj hread).symm
  rw [Cache.sound_empty.run hdistinct, List.map_map]
  · apply List.map_congr_left
    intro job hjob
    simp only [Function.comp_apply, Cache.Request.fresh, (h job hjob).document]
    rfl
  · intro request hrequest pair hpair
    obtain ⟨job, hjob, rfl⟩ := List.mem_map.mp hrequest
    cases hpair
    exact List.mem_map_of_mem hjob

theorem convertPath_of_isDirectory (hroot : t.isDirectory root = true) :
    convertPath t o root = match templateFiles t o root with
      | .error e => (.error e, t)
      | .ok files => convertFiles t o (some root) files := by
  have hfile : t.isFile root = false := by rw [Tree.isFile, Tree.stat_of_isDirectory hroot]
  cases hfiles : templateFiles t o root <;>
    simp only [convertPath, hfile, hfiles, Bool.false_eq_true, if_false]

/-- A template that cannot be converted changes nothing. -/
theorem convertFiles_of_document_error {root : Option Pathname} {f : Pathname} {e : Failure}
    (h : document t o f = .error e) (rest : List Pathname) :
    convertFiles t o root (f :: rest) = (.error e, t) := by
  simp only [convertFiles, convertFile, h]

/-- An error in a template names its file. -/
theorem message_of_document_error {f : Pathname} {e : Failure} (h : document t o f = .error e) :
    e.report.message = "Failed to read " ++ String.ofList f ∨
      e.report.message = "Failed to transpile " ++ String.ofList f := by
  unfold document at h
  split at h
  · cases h
    exact .inl rfl
  · split at h
    · cases h
      exact .inr rfl
    · cases h

end

/-- The first templates of a directory are jobs that are done, up to a failure, and leave all
templates as they were. -/
theorem convertFiles_take {t t' : Tree} (ht : t.WellFormed) {o : Options} (ho : Separate o)
    {root : Pathname} (hroot : t.isDirectory root = true) {files : List Pathname}
    (hfiles : templateFiles t o root = .ok files) {k : Nat}
    {result : Except Failure (List Converted)}
    (h : convertFiles t o (some root) (files.take k) = (result, t')) :
    ∃ jobs : List Job, jobs.map (·.path o root) = (files.take k).take jobs.length ∧
      Tree.Within (jobs.map (·.place)) t t' ∧ (∀ job ∈ jobs, job.Done o root t t') ∧
      (∀ f ∈ files, t'.stat f = t.stat f) ∧
      (∀ f ∈ files.drop k, ∀ target l, target? o f (some root) = some target →
        t'.locate target = .ok l → t'.file? l = t.file? l) ∧
      (result = .ok (jobs.map (·.converted o root)) ∧ jobs.length = (files.take k).length ∨
        ∃ f e, (files.take k)[jobs.length]? = some f ∧ result = .error e ∧
          (document t o f = .error e ∨ e.isDelivery = true)) := by
  have hne : root ≠ [] := by
    rintro rfl
    cases hroot
  obtain ⟨top, stems, rfl, hnodup, hlisted⟩ := templateFiles_eq_ok ht hroot hfiles
  rw [← List.map_take] at h ⊢
  obtain ⟨jobs, hstems, hwithin, hjobs, hresult⟩ :=
    convertFiles_cases ho hne (hnodup.sublist (List.take_sublist k stems))
      (fun s hs => hlisted s (List.mem_of_mem_take hs)) h
  have hmem : ∀ job ∈ jobs, job.stem ∈ stems := fun job hjob =>
    List.mem_of_mem_take (List.mem_of_mem_take (hstems ▸ List.mem_map_of_mem hjob))
  have ht' : t'.WellFormed := by
    have hreaches := reaches_convertFiles t o (some root) ((stems.take k).map (·.template o root))
    rw [h] at hreaches
    exact ht.run hreaches
  refine ⟨jobs, ?_, hwithin, hjobs, ?_, ?_, ?_⟩
  · rw [← List.map_take, ← hstems, List.map_map]
    rfl
  · intro f hf
    obtain ⟨s, hs, rfl⟩ := List.mem_map.mp hf
    exact (hlisted s hs).kept ho hwithin fun job hjob =>
      ⟨(hjobs job hjob).below, (hlisted _ (hmem job hjob)).spelled.ne_nil⟩
  · intro f hf target l
    rw [← List.map_drop] at hf
    obtain ⟨s, hs, rfl⟩ := List.mem_map.mp hf
    refine (hlisted s (List.mem_of_mem_drop hs)).target_kept ho hne ht' hwithin fun job hjob =>
      ⟨(hjobs job hjob).below, ?_⟩
    rintro rfl
    exact List.disjoint_take_drop hnodup (Nat.le_refl k)
      (List.mem_of_mem_take (hstems ▸ List.mem_map_of_mem hjob)) hs
  · rw [List.length_map]
    refine hresult.imp id fun ⟨s, e, hs, he, hfailed⟩ => ?_
    exact ⟨_, e, by rw [List.getElem?_map, hs]; rfl, he, hfailed⟩

/-- A directory is converted as its templates were at the start: each target holds the text for
its template, kept programs play no part, and no other file changes. A template that cannot be read
or converted ends the conversion with the tree that the templates before it leave, where its target
is as it was. -/
theorem convertPath_directory {t : Tree} (ht : t.WellFormed) {o : Options} (ho : Separate o)
    {root : Pathname} (hroot : t.isDirectory root = true) :
    (∀ converted t', convertPath t o root = (.ok converted, t') →
      ∃ jobs : List Job, templateFiles t o root = .ok (jobs.map (·.path o root)) ∧
        converted = jobs.map (·.converted o root) ∧
        (∀ job ∈ jobs, target? o (job.path o root) (some root) = some (job.target o root) ∧
          t.read (job.path o root) = .ok job.source ∧
          Document.ofSource o job.source = .ok job.document ∧
          t'.read (job.target o root) = .ok (job.text o) ∧
          t'.read (job.path o root) = .ok job.source) ∧
        (∀ digest, (Cache.run digest .empty (jobs.map fun job =>
            .handOut o (String.ofList (job.path o root)) job.source)).1 =
          jobs.map fun job => .text (.ok (job.text o, job.document.diagnostics))) ∧
        ∀ l, (∀ job ∈ jobs, t'.locate (job.target o root) ≠ .ok l) → t'.file? l = t.file? l) ∧
    ∀ files k f e converted t', templateFiles t o root = .ok files → files[k]? = some f →
      document t o f = .error e →
      convertFiles t o (some root) (files.take k) = (.ok converted, t') →
        convertPath t o root = (.error e, t') ∧
          (e.report.message = "Failed to read " ++ String.ofList f ∨
            e.report.message = "Failed to transpile " ++ String.ofList f) ∧
          ∀ target l, target? o f (some root) = some target → t'.locate target = .ok l →
            t'.file? l = t.file? l := by
  constructor
  · intro converted t' h
    rw [convertPath_of_isDirectory hroot] at h
    cases hfiles : templateFiles t o root with
    | error e =>
      rw [hfiles] at h
      cases h
    | ok files =>
      rw [hfiles] at h
      dsimp only at h
      rw [← List.take_length (l := files)] at h
      obtain ⟨jobs, hpaths, hwithin, hjobs, hkept, -,
          ⟨hconverted, hlength⟩ | ⟨f, e, -, herror, -⟩⟩ :=
        convertFiles_take ht ho hroot hfiles h
      · rw [List.take_length] at hpaths hlength
        rw [hlength, List.take_length] at hpaths
        refine ⟨jobs, by rw [hpaths], Except.ok.inj hconverted, ?_, run_handOut hjobs, ?_⟩
        · intro job hjob
          have hdone := hjobs job hjob
          have hread := read_of_stat_eq
            (hkept (job.path o root) (hpaths ▸ List.mem_map_of_mem hjob))
          exact ⟨hdone.target, hdone.read, hdone.document, hdone.read_target,
            hread.trans hdone.read⟩
        · intro l hl
          refine hwithin.files l fun hplace => ?_
          obtain ⟨job, hjob, rfl⟩ := List.mem_map.mp hplace
          exact hl job hjob (hjobs job hjob).located
      · cases herror
  · intro files k f e converted t' hfiles hf hdocument hbefore
    obtain ⟨jobs, -, -, -, hkept, htargets, -⟩ := convertFiles_take ht ho hroot hfiles hbefore
    have hdocument' : document t' o f = .error e :=
      (document_of_stat_eq (hkept f (List.mem_of_getElem? hf))).trans hdocument
    obtain ⟨hlt, rfl⟩ := List.getElem?_eq_some_iff.mp hf
    have hdrop : files[k] ∈ files.drop k := by
      rw [← List.getElem_cons_drop hlt]
      exact List.mem_cons_self
    refine ⟨?_, message_of_document_error hdocument, htargets _ hdrop⟩
    rw [convertPath_of_isDirectory hroot, hfiles]
    dsimp only
    rw [← List.take_append_drop k files, ← List.getElem_cons_drop hlt]
    exact convertFiles_append hbefore (convertFiles_of_document_error hdocument' _)

/-- A directory with two templates, to be converted into a directory below it. -/
def cards (second : String) : Tree :=
  ((({} : Tree).set ["t".toList] .directory).set ["t".toList, "a.hbs".toList]
    (.file "\x7b\x7ba\x7d\x7d".toUTF8)).set ["t".toList, "b.hbs".toList] (.file second.toUTF8)

def fineCards : Tree :=
  cards "\x7b\x7b> c\x7d\x7d"

/-- The second template has a block that is not closed. -/
def brokenCards : Tree :=
  cards "\x7b\x7b#if a\x7d\x7d"

def cardOptions : Options :=
  { outDir := some "t/out" }

theorem separate_cardOptions : Separate cardOptions :=
  ⟨by decide, by decide, by decide, by decide⟩

theorem templateFiles_cards (second : String) :
    templateFiles (cards second) cardOptions "t".toList =
      .ok ["t/a.hbs".toList, "t/b.hbs".toList] := by
  have hbelow : (cards second).nodesBelow ["t".toList] =
      [(["a.hbs".toList], .file "\x7b\x7ba\x7d\x7d".toUTF8),
        (["b.hbs".toList], .file second.toUTF8)] := by
    have hsorted : (!decide (["b.hbs".toList] < ["a.hbs".toList])) = true := by decide
    exact List.mergeSort_of_pairwise (List.pairwise_pair.mpr hsorted)
  have hfile : (cards second).isFile "t".toList = false := rfl
  have hlocate : (cards second).locate "t".toList = .ok ["t".toList] := rfl
  rw [templateFiles, hfile, if_neg Bool.false_ne_true, hlocate]
  dsimp only
  rw [hbelow]
  rfl

theorem convertPath_cards :
    (∃ (jobs : List Job) (t' : Tree),
      convertPath fineCards cardOptions "t".toList =
        (.ok (jobs.map (·.converted cardOptions "t".toList)), t') ∧ jobs.length = 2 ∧
      ∀ job ∈ jobs, t'.read (job.target cardOptions "t".toList) = .ok (job.text cardOptions)) ∧
    ∃ e t', convertPath brokenCards cardOptions "t".toList = (.error e, t') ∧
      t'.isFile "t/out/b.html".toList = false ∧
        e.report.message ∈ ["Failed to read t/b.hbs", "Failed to transpile t/b.hbs"] := by
  constructor
  · have hroot : fineCards.isDirectory "t".toList = true := by decide +kernel
    have hpath := convertPath_of_isDirectory (o := cardOptions) hroot
    rw [fineCards, templateFiles_cards, ← fineCards] at hpath
    dsimp only at hpath
    have hrun : (convertFiles fineCards cardOptions (some "t".toList)
        ["t/a.hbs".toList, "t/b.hbs".toList]).1.toOption.isSome = true := by decide +kernel
    rw [← hpath] at hrun
    cases hconverted : convertPath fineCards cardOptions "t".toList with
    | mk result t' =>
      cases result with
      | error e =>
        rw [hconverted] at hrun
        cases hrun
      | ok converted =>
        obtain ⟨jobs, hfiles, rfl, hjobs, -⟩ :=
          (convertPath_directory (by decide +kernel) separate_cardOptions hroot).1 _ _ hconverted
        rw [fineCards, templateFiles_cards] at hfiles
        have hlength := congrArg List.length (Except.ok.inj hfiles)
        rw [List.length_map] at hlength
        exact ⟨jobs, t', rfl, hlength.symm, fun job hjob => (hjobs job hjob).2.2.2.1⟩
  · have hroot : brokenCards.isDirectory "t".toList = true := by decide +kernel
    have hbroken : (document brokenCards cardOptions
        "t/b.hbs".toList).toOption.isNone = true := by decide +kernel
    have hfirst : (convertFiles brokenCards cardOptions (some "t".toList)
        ["t/a.hbs".toList]).1.toOption.isSome = true ∧
        (convertFiles brokenCards cardOptions (some "t".toList)
          ["t/a.hbs".toList]).2.isFile "t/out/b.html".toList = false := by decide +kernel
    cases hdocument : document brokenCards cardOptions "t/b.hbs".toList with
    | ok pair =>
      rw [hdocument] at hbroken
      cases hbroken
    | error e =>
      cases hbefore : convertFiles brokenCards cardOptions (some "t".toList)
          ["t/a.hbs".toList] with
      | mk result t' =>
        rw [hbefore] at hfirst
        cases result with
        | error e => cases hfirst.1
        | ok converted =>
          obtain ⟨hpath, hmessage, -⟩ :=
            (convertPath_directory (by decide +kernel) separate_cardOptions hroot).2 _ 1 _ e
              converted t' (templateFiles_cards _) rfl hdocument hbefore
          refine ⟨e, t', hpath, hfirst.2, ?_⟩
          rcases hmessage with hmessage | hmessage <;> rw [hmessage] <;> decide

end Stencil.Disk
