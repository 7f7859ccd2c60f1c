import Stencil.CommandLine.Run
import Stencil.Proofs.Disk.Convert

/-!
# Printing and writing

With `--stdout` the templates of a directory are printed and the tree stays as
it is; without it their texts are written to targets. The same templates are
converted in both cases, with the same texts, and the first one that cannot be
converted ends either command.
-/

namespace Stencil.CommandLine

open Disk (Tree Pathname Failure Job brokenCards)

def Draft.printing (d : Draft) : Draft :=
  { d with command := { d.command with stdout := true } }

/-- A reader of options that never turns printing off, and for which it makes no other difference.
What ends the reading is no command to convert. -/
structure Indifferent (f : Draft → Effect Draft) : Prop where
  lasting : ∀ {d e}, f d = .update e → d.command.stdout = true → e.command.stdout = true
  same : ∀ {d e}, f d = .update e → e.command.stdout = false → f d.printing = .update e.printing
  ended : ∀ {d c}, f d ≠ .finish (.convert c)

theorem Indifferent.bind {f g : Draft → Effect Draft} (hf : Indifferent f) (hg : Indifferent g) :
    Indifferent fun d =>
      match f d with
      | .update d => g d
      | .finish request => .finish request where
  lasting := by
    intro d e h hd
    split at h
    · next hmiddle => exact hg.lasting h (hf.lasting hmiddle hd)
    · cases h
  same := by
    intro d e h he
    split at h
    · next middle hmiddle =>
      have hoff : middle.command.stdout = false := by
        cases hm : middle.command.stdout with
        | false => rfl
        | true => exact (hg.lasting h hm).symm.trans he
      rw [hf.same hmiddle hoff]
      exact hg.same h he
    · cases h
  ended := by
    intro d c h
    split at h
    · exact hg.ended h
    · next hfirst =>
      cases h
      exact hf.ended hfirst

theorem indifferent_update : Indifferent .update where
  lasting h := by
    cases h
    exact id
  same h _ := by
    cases h
    rfl
  ended := nofun

theorem indifferent_finish {request : Request} (h : ∀ c, request ≠ .convert c) :
    Indifferent fun _ => .finish request where
  lasting := nofun
  same := nofun
  ended {_ c} hended := h c (by cases hended; rfl)

/-- Options that can be refused, and are set beside that of printing. -/
theorem indifferent_set {b : Draft → Bool} {u : Draft → Draft} (hb : ∀ d, b d.printing = b d)
    (hkept : ∀ d, (u d).command.stdout = d.command.stdout)
    (hu : ∀ d, u d.printing = (u d).printing) :
    Indifferent fun d => if b d then .finish .misuse else .update (u d) where
  lasting := by
    intro d e h hd
    split at h <;> cases h
    exact (hkept d).trans hd
  same := by
    intro d e h _
    split at h
    · cases h
    · next hfree =>
      cases h
      rw [hb, if_neg hfree, hu]
  ended := by
    intro d c h
    split at h <;> cases h

theorem indifferent_addPath (subcommand : Subcommand) (path : String) :
    Indifferent (·.addPath subcommand path) :=
  indifferent_set
    (b := fun d => path = "" || !subcommand.admitsPath d.command.paths.length)
    (u := fun d => { d with command := { d.command with paths := d.command.paths ++ [path] } })
    (fun _ => rfl) (fun _ => rfl) fun _ => rfl

theorem indifferent_setOutDir (directory : String) : Indifferent (·.setOutDir directory) :=
  indifferent_set (b := fun d => directory = "" || d.command.outDir.isSome)
    (u := fun d => { d with command := { d.command with outDir := some directory } })
    (fun _ => rfl) (fun _ => rfl) fun _ => rfl

theorem indifferent_setVerbose : Indifferent Draft.setVerbose :=
  indifferent_set (b := (·.verbose)) (u := fun d => { d with verbose := true })
    (fun _ => rfl) (fun _ => rfl) fun _ => rfl

/-- Once printing is asked for, it is on. -/
theorem indifferent_setStdout : Indifferent fun d =>
    switch d.command.stdout { d with command := { d.command with stdout := true } } := by
  unfold switch
  refine ⟨?_, ?_, ?_⟩
  · intro d e h _
    split at h <;> cases h
  · intro d e h hoff
    split at h <;> cases h
    cases hoff
  · intro d c h
    split at h <;> cases h

theorem indifferent_setSwitch (name : String) : Indifferent (·.setSwitch name) := by
  unfold Draft.setSwitch
  by_cases hcomment : name = "no-source-comment"
  · simp only [hcomment, if_true]
    exact indifferent_set (b := (·.command.noSourceComment))
      (u := fun d => { d with command := { d.command with noSourceComment := true } })
      (fun _ => rfl) (fun _ => rfl) fun _ => rfl
  · simp only [hcomment, if_false]
    by_cases hlenient : name = "lenient-partials"
    · simp only [hlenient, if_true]
      exact indifferent_set (b := (·.command.lenientPartials))
        (u := fun d => { d with command := { d.command with lenientPartials := true } })
        (fun _ => rfl) (fun _ => rfl) fun _ => rfl
    · simp only [hlenient, if_false]
      by_cases hstdout : name = "stdout"
      · simp only [hstdout, if_true]
        exact indifferent_setStdout
      · simp only [hstdout, if_false]
        exact indifferent_finish nofun

theorem indifferent_readLetters (letters : List Char) : Indifferent (readLetters · letters) := by
  induction letters with
  | nil => exact indifferent_update
  | cons c letters ih =>
    by_cases hv : c = 'v'
    · subst hv
      exact indifferent_setVerbose.bind ih
    · by_cases hh : c = 'h'
      · subst hh
        exact indifferent_finish nofun
      · have hmisuse : (readLetters · (c :: letters)) = fun _ => .finish .misuse := by
          funext d
          simp [readLetters, hv, hh]
        rw [hmisuse]
        exact indifferent_finish nofun

theorem indifferent_readName (subcommand : Subcommand) (name : String) :
    Indifferent (readName subcommand · name) := by
  unfold readName
  by_cases hverbose : name = "verbose"
  · simp only [hverbose, if_true]
    exact indifferent_setVerbose
  · simp only [hverbose, if_false]
    by_cases hhelp : name = "help"
    · simp only [hhelp, if_true]
      exact indifferent_finish nofun
    · simp only [hhelp, if_false]
      split
      · exact indifferent_setSwitch name
      · exact indifferent_finish nofun

theorem indifferent_readPaths (subcommand : Subcommand) (paths : List String) :
    Indifferent (readPaths subcommand · paths) := by
  induction paths with
  | nil => exact indifferent_update
  | cons path paths ih => exact (indifferent_addPath subcommand path).bind ih

theorem indifferent_readArguments (subcommand : Subcommand) :
    (arguments : List String) → Indifferent (readArguments subcommand · arguments)
  | [] => by
    unfold readArguments
    exact indifferent_update
  | argument :: rest => by
    have ih := indifferent_readArguments subcommand rest
    unfold readArguments
    cases Argument.ofText argument with
    | doubleDash => exact indifferent_readPaths subcommand rest
    | value path => exact (indifferent_addPath subcommand path).bind ih
    | short letters => exact (indifferent_readLetters letters).bind ih
    | long name value =>
      cases value with
      | some value =>
        dsimp only
        split
        · exact (indifferent_setOutDir value).bind ih
        · exact indifferent_finish nofun
      | none =>
        dsimp only
        split
        · cases rest with
          | nil => exact indifferent_finish nofun
          | cons next rest =>
            dsimp only
            cases Argument.ofText next with
            | value directory =>
              exact (indifferent_setOutDir directory).bind
                (indifferent_readArguments subcommand rest)
            | doubleDash => exact indifferent_finish nofun
            | short letters => exact indifferent_finish nofun
            | long name value => exact indifferent_finish nofun
        · exact (indifferent_readName subcommand name).bind ih

theorem ofArguments_convert (arguments : List String) :
    Request.ofArguments ("convert" :: arguments) = readConvert arguments := by
  have hconvert : Argument.ofText "convert" = .value "convert" := by decide
  rw [Request.ofArguments, readTop, hconvert]
  exact if_pos rfl

/-- With `--stdout` in front, the same command asks for printing. -/
theorem ofArguments_stdout {arguments : List String} {c : ConvertCommand}
    (h : Request.ofArguments ("convert" :: arguments) = .convert c) (hc : c.stdout = false) :
    Request.ofArguments ("convert" :: "--stdout" :: arguments) =
      .convert { c with stdout := true } := by
  have hindifferent := indifferent_readArguments .convert arguments
  have hstdout : Argument.ofText "--stdout" = .long "stdout" none := by decide
  have hfirst : readArguments .convert {} ("--stdout" :: arguments) =
      readArguments .convert ({} : Draft).printing arguments := by
    rw [readArguments.eq_def]
    dsimp only
    rw [hstdout]
    rfl
  rw [ofArguments_convert] at h ⊢
  unfold readConvert at h ⊢
  rw [hfirst]
  split at h
  · next hended =>
    subst h
    exact absurd hended hindifferent.ended
  · next d hd =>
    split at h
    · cases h
    · next hpaths =>
      cases h
      rw [hindifferent.same hd hc]
      exact if_neg hpaths

theorem reaches_convertPaths (t : Tree) (o : Options) (paths : List Pathname) :
    Relation.ReflTransGen Tree.Step t (convertPaths t o paths).2 := by
  induction paths generalizing t with
  | nil => exact .refl
  | cons p rest ih =>
    have hfirst := Disk.reaches_convertPath t o p
    rw [convertPaths]
    split
    · next hconvert =>
      rw [hconvert] at hfirst
      exact hfirst
    · next middle hconvert =>
      rw [hconvert] at hfirst
      exact hfirst.trans (ih middle)

/-- A command changes a tree step by step. -/
theorem reaches_run (t : Tree) (request : Request) :
    Relation.ReflTransGen Tree.Step t (run t request).tree := by
  cases request with
  | convert c =>
    have hconverted := reaches_convertPaths t c.options (c.paths.map String.toList)
    have htree : (run t (.convert c)).tree =
        if c.stdout then t else (convertPaths t c.options (c.paths.map String.toList)).2 := by
      rw [run, runConvert]
      cases c.stdout <;> dsimp only <;> split <;> rfl
    rw [htree]
    split
    · exact .refl
    · exact hconverted
  | ast file =>
    rw [run, runAst]
    split
    · exact .refl
    · split <;> exact .refl
  | version => exact .refl
  | help => exact .refl
  | misuse => exact .refl

/-- Commands leave well-formed trees behind. -/
theorem wellFormed_run {t : Tree} (h : t.WellFormed) (request : Request) :
    (run t request).tree.WellFormed :=
  h.run (reaches_run t request)

section
variable {t t' : Tree} {o : Options} {root : Pathname}

/-- Templates that have been converted are printed one after the other. -/
theorem printFiles_append {jobs : List Job} (h : ∀ job ∈ jobs, job.Done o root t t')
    (rest : List Pathname) :
    printFiles t o (jobs.map (·.path o root) ++ rest) =
      (String.join (jobs.map fun job => job.text o ++ "\n") ++ (printFiles t o rest).1,
        (printFiles t o rest).2) := by
  induction jobs with
  | nil => simp
  | cons job jobs ih =>
    rw [List.forall_mem_cons] at h
    rw [List.map_cons, List.cons_append, printFiles, h.1.document_eq]
    dsimp only
    rw [ih h.2, List.map_cons, String.join_cons]
    simp only [String.append_assoc]

theorem printPaths_singleton (p : Pathname) :
    printPaths t o [p] = match Disk.templateFiles t o p with
      | .error e => ("", some e.report)
      | .ok files => printFiles t o files := by
  rw [printPaths]
  cases Disk.templateFiles t o p with
  | error e => rfl
  | ok files =>
    dsimp only
    cases printFiles t o files with
    | mk text report =>
      cases report with
      | none => simp [printPaths]
      | some report => rfl

theorem printFiles_of_document_error {f : Pathname} {e : Failure}
    (h : Disk.document t o f = .error e) (rest : List Pathname) :
    printFiles t o (f :: rest) = ("", some (printReport e)) := by
  rw [printFiles, h]

end

section
variable {t : Tree} {c : ConvertCommand} {dir : String} (hpaths : c.paths = [dir])
include hpaths

theorem run_printing : run t (.convert { c with stdout := true }) =
    match printPaths t c.options [dir.toList] with
    | (text, some report) => fail t text report
    | (text, none) => { stdout := text, tree := t } := by
  have hoptions : ({ c with stdout := true } : ConvertCommand).options = c.options := rfl
  rw [run, runConvert, hoptions]
  simp only [hpaths, List.map_cons, List.map_nil, if_true]
  cases printPaths t c.options [dir.toList] with
  | mk text report => cases report <;> rfl

theorem run_writing (hc : c.stdout = false) : run t (.convert c) =
    match Disk.convertPath t c.options dir.toList with
    | (.error e, t') => fail t' "" e.report
    | (.ok _, t') => { tree := t' } := by
  rw [run, runConvert, hpaths, hc]
  simp only [List.map_cons, List.map_nil, convertPaths, Bool.false_eq_true, if_false]
  cases Disk.convertPath t c.options dir.toList with
  | mk result t' => cases result <;> rfl

end

/-- What has been printed, and where it has been written, as far as templates have been
converted. -/
structure Delivered (t : Tree) (o : Options) (root : Pathname) (printed written : Outcome)
    (jobs : List Job) : Prop where
  stdout : printed.stdout = String.join (jobs.map fun job => job.text o ++ "\n")
  document : ∀ job ∈ jobs, Disk.document t o (job.path o root) = .ok (job.text o, job.document)
  target : ∀ job ∈ jobs, Disk.target? o (job.path o root) (some root) = some (job.target o root)
  content : ∀ job ∈ jobs, written.tree.read (job.target o root) = .ok (job.text o)
  others : ∀ l, (∀ job ∈ jobs, written.tree.locate (job.target o root) ≠ .ok l) →
    written.tree.file? l = t.file? l

theorem delivered_of_done {t : Tree} {o : Options} {root : Pathname} {printed written : Outcome}
    {jobs : List Job}
    (hstdout : printed.stdout = String.join (jobs.map fun job => job.text o ++ "\n"))
    (hwithin : Tree.Within (jobs.map (·.place)) t written.tree)
    (hjobs : ∀ job ∈ jobs, job.Done o root t written.tree) :
    Delivered t o root printed written jobs where
  stdout := hstdout
  document job hjob := (hjobs job hjob).document_eq
  target job hjob := (hjobs job hjob).target
  content job hjob := (hjobs job hjob).read_target
  others l hl := by
    refine hwithin.files l fun hplace => ?_
    obtain ⟨job, hjob, rfl⟩ := List.mem_map.mp hplace
    exact hl job hjob (hjobs job hjob).located

inductive Agrees (t : Tree) (o : Options) (root : Pathname) (printed written : Outcome) : Prop
  /-- The directory cannot be walked. -/
  | unlisted (e : Failure) (hfiles : Disk.templateFiles t o root = .error e)
      (hprinted : printed = fail t "" e.report) (hwritten : written = fail t "" e.report)
  | complete (jobs : List Job)
      (hfiles : Disk.templateFiles t o root = .ok (jobs.map (·.path o root)))
      (hdelivered : Delivered t o root printed written jobs) (hprinted : printed.exit = 0)
      (hwritten : written.exit = 0)
  /-- A template cannot be read or converted. -/
  | broken (jobs : List Job) (f : Pathname) (rest : List Pathname) (e : Failure)
      (hfiles : Disk.templateFiles t o root = .ok (jobs.map (·.path o root) ++ f :: rest))
      (hdelivered : Delivered t o root printed written jobs)
      (hdocument : Disk.document t o f = .error e) (hprinted : printed.exit = 1)
      (hprintedReport : printed.report = some (renderReport (printReport e)))
      (hwritten : written.exit = 1) (hwrittenReport : written.report = some (renderReport e.report))

/-- The extensions of a command are the usual ones. -/
theorem separate_options {c : ConvertCommand} : Disk.Separate c.options :=
  ⟨by simp [ConvertCommand.options], by simp [ConvertCommand.options],
    by simp [ConvertCommand.options], by simp [ConvertCommand.options]⟩

/-- Printing leaves the tree as it is. Unless directories cannot be made or files not be written,
it prints the texts that are written without `--stdout`, and ends at the same template. -/
theorem stdout_agrees {t : Tree} (ht : t.WellFormed) {arguments : List String} {c : ConvertCommand}
    {dir : String} (hc : Request.ofArguments ("convert" :: arguments) = .convert c)
    (hstdout : c.stdout = false) (hpaths : c.paths = [dir])
    (hdir : t.isDirectory dir.toList = true) :
    (run t (.ofArguments ("convert" :: "--stdout" :: arguments))).tree = t ∧
    ((∀ e, (Disk.convertPath t c.options dir.toList).1 = .error e → e.isDelivery = false) →
      Agrees t c.options dir.toList (run t (.ofArguments ("convert" :: "--stdout" :: arguments)))
        (run t (.ofArguments ("convert" :: arguments)))) := by
  rw [ofArguments_stdout hc hstdout, hc, run_printing hpaths, run_writing hpaths hstdout,
    Disk.convertPath_of_isDirectory hdir, printPaths_singleton]
  cases hfiles : Disk.templateFiles t c.options dir.toList with
  | error e => exact ⟨rfl, fun _ => .unlisted e hfiles rfl rfl⟩
  | ok files =>
    dsimp only
    refine ⟨by split <;> rfl, fun hdelivery => ?_⟩
    cases hrun : Disk.convertFiles t c.options (some dir.toList) files with
    | mk result t' =>
      rw [hrun] at hdelivery
      rw [← List.take_length (l := files)] at hrun
      obtain ⟨jobs, hjobs, hwithin, hdone, -, -, ⟨rfl, hlength⟩ | ⟨f, e, hf, rfl, hfailed⟩⟩ :=
        Disk.convertFiles_take ht separate_options hdir hfiles hrun
      · rw [List.take_length] at hjobs hlength
        rw [hlength, List.take_length] at hjobs
        have hprint := printFiles_append hdone []
        rw [List.append_nil, hjobs] at hprint
        rw [hprint]
        refine .complete jobs (hjobs ▸ hfiles) (delivered_of_done ?_ hwithin hdone) rfl rfl
        exact String.append_empty
      · rw [List.take_length] at hjobs hf
        have hdocument : Disk.document t c.options f = .error e := by
          refine hfailed.resolve_right fun he => ?_
          rw [hdelivery e rfl] at he
          cases he
        obtain ⟨hlt, rfl⟩ := List.getElem?_eq_some_iff.mp hf
        have hsplit : jobs.map (·.path c.options dir.toList) ++
            files[jobs.length] :: files.drop (jobs.length + 1) = files := by
          rw [hjobs, List.getElem_cons_drop, List.take_append_drop]
        have hprint := printFiles_append hdone
          (files[jobs.length] :: files.drop (jobs.length + 1))
        rw [hsplit, printFiles_of_document_error hdocument] at hprint
        rw [hprint]
        refine .broken jobs _ _ e (hsplit.symm ▸ hfiles) (delivered_of_done ?_ hwithin hdone)
          hdocument rfl rfl rfl rfl
        exact String.append_empty

/-- A command line that writes the templates of a directory into one below it. -/
def cardArguments : List String :=
  ["--out-dir", "t/out", "t"]

def cardCommand : ConvertCommand :=
  { paths := ["t"], outDir := some "t/out" }

theorem stdout_agrees_cards :
    Request.ofArguments ("convert" :: cardArguments) = .convert cardCommand ∧
    (run brokenCards (.ofArguments ("convert" :: "--stdout" :: cardArguments))).tree = brokenCards ∧
    Agrees brokenCards cardCommand.options "t".toList
      (run brokenCards (.ofArguments ("convert" :: "--stdout" :: cardArguments)))
      (run brokenCards (.ofArguments ("convert" :: cardArguments))) := by
  have hc : Request.ofArguments ("convert" :: cardArguments) = .convert cardCommand := by
    decide +kernel
  have hdir : brokenCards.isDirectory "t".toList = true := by decide +kernel
  obtain ⟨htree, hagrees⟩ := stdout_agrees (by decide +kernel) hc rfl rfl hdir
  refine ⟨hc, htree, hagrees fun e he => ?_⟩
  have hfailure : (match (Disk.convertFiles brokenCards cardCommand.options (some "t".toList)
      ["t/a.hbs".toList, "t/b.hbs".toList]).1 with
      | .error e => e.isDelivery
      | .ok _ => false) = false := by decide +kernel
  have hfiles : Disk.templateFiles brokenCards cardCommand.options "t".toList =
      .ok ["t/a.hbs".toList, "t/b.hbs".toList] := Disk.templateFiles_cards _
  rw [Disk.convertPath_of_isDirectory hdir, hfiles] at he
  dsimp only at he
  rw [he] at hfailure
  exact hfailure

end Stencil.CommandLine
