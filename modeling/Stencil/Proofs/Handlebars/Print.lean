import Stencil.Handlebars.Nesting

/-!
# Printing templates

The canonical spelling of a program. Arguments are set apart by single spaces,
strings stand in double quotes, and every tag but `else` and comments leaves a
space before its closing braces. Normal programs are the ones whose spelling
determines them; expressible programs stay clear of what a template has no
spelling for.
-/

namespace Stencil.Handlebars

/-- A string's text with a backslash before each double quote. -/
def protectQuotes : List Char → List Char
  | [] => []
  | c :: s => if c = '"' then '\\' :: '"' :: protectQuotes s else c :: protectQuotes s

theorem protectQuotes_of_not_mem {s : List Char} (h : '"' ∉ s) : protectQuotes s = s := by
  induction s with
  | nil => rfl
  | cons c s ih =>
    rw [List.mem_cons, not_or] at h
    rw [protectQuotes, if_neg (Ne.symm h.1), ih h.2]

namespace Expr

mutual

def print : Expr → List Char
  | path p => p.spelling.toList
  | call helper params hash =>
    '(' :: (helper.spelling.toList ++ printParams params ++ printHash hash) ++ [')']
  | string s => '"' :: protectQuotes s.toList ++ ['"']
  | number n => n.toList
  | boolean b => (boolText b).toList
  | undefined => ['u', 'n', 'd', 'e', 'f', 'i', 'n', 'e', 'd']
  | null => ['n', 'u', 'l', 'l']

def printParams : List Expr → List Char
  | [] => []
  | e :: params => ' ' :: print e ++ printParams params

def printHash : List (String × Expr) → List Char
  | [] => []
  | (key, e) :: hash => ' ' :: key.toList ++ '=' :: print e ++ printHash hash

end

end Expr

def printNames : List String → List Char
  | [] => []
  | [name] => name.toList
  | name :: names => name.toList ++ ' ' :: printNames names

def printBlockParams : List String → List Char
  | [] => []
  | names => [' ', 'a', 's', ' ', '|'] ++ printNames names ++ ['|']

namespace Call

def print (c : Call) : List Char :=
  c.head.print ++ Expr.printParams c.args.params ++ Expr.printHash c.args.hash ++
    printBlockParams c.blockParams

end Call

def inBraces (inner : List Char) : List Char :=
  Tag.braces ++ inner ++ Tag.closingBraces

/-- The inside of a tag that holds a call behind a sign, with a space on either side. -/
def inner (sign : List Char) (c : Call) : List Char :=
  sign ++ ' ' :: c.print ++ [' ']

mutual

def Statement.print : Statement → List Char
  | .content text => text.toList
  | .comment text => inBraces (['!', '-', '-'] ++ text.toList ++ ['-', '-'])
  | .mustache head args escaped =>
    inBraces (inner (if escaped then [] else ['&']) { head, args })
  | .block helper args ⟨body, blockParams⟩ inverse =>
    inBraces (inner ['#'] { head := .path helper, args, blockParams }) ++ printBody body ++
      printInverse inverse ++ inBraces ('/' :: helper.spelling.toList ++ [' '])
  | .embed name args => inBraces (inner ['>'] { head := name, args })

def printBody : List Statement → List Char
  | [] => []
  | s :: body => s.print ++ printBody body

def printInverse : Option Program → List Char
  | none => []
  | some ⟨body, _⟩ => inBraces ['e', 'l', 's', 'e'] ++ printBody body

end

def Program.print (p : Program) : List Char :=
  printBody p.body

namespace Expr

mutual

/-- A condition on an expression and on all expressions inside it. -/
def All (P : Expr → Prop) : Expr → Prop
  | path p => P (path p)
  | call helper params hash => P (call helper params hash) ∧ AllParams P params ∧ AllHash P hash
  | string s => P (string s)
  | number n => P (number n)
  | boolean b => P (boolean b)
  | undefined => P undefined
  | null => P null

def AllParams (P : Expr → Prop) : List Expr → Prop
  | [] => True
  | e :: params => All P e ∧ AllParams P params

def AllHash (P : Expr → Prop) : List (String × Expr) → Prop
  | [] => True
  | (_, e) :: hash => All P e ∧ AllHash P hash

end

mutual

/-- The expression and all expressions inside it. -/
def within : Expr → List Expr
  | path p => [path p]
  | call helper params hash =>
    call helper params hash :: (withinParams params ++ withinHash hash)
  | string s => [string s]
  | number n => [number n]
  | boolean b => [boolean b]
  | undefined => [undefined]
  | null => [null]

def withinParams : List Expr → List Expr
  | [] => []
  | e :: params => within e ++ withinParams params

def withinHash : List (String × Expr) → List Expr
  | [] => []
  | (_, e) :: hash => within e ++ withinHash hash

end

section
variable {P Q R : Expr → Prop}

mutual

theorem all_iff : ∀ {e : Expr}, e.All P ↔ ∀ d ∈ e.within, P d
  | path p => by rw [All, within, List.forall_mem_singleton]
  | call helper params hash => by
    rw [All, within, List.forall_mem_cons, List.forall_mem_append, allParams_within_iff,
      allHash_within_iff]
  | string s => by rw [All, within, List.forall_mem_singleton]
  | number n => by rw [All, within, List.forall_mem_singleton]
  | boolean b => by rw [All, within, List.forall_mem_singleton]
  | undefined => by rw [All, within, List.forall_mem_singleton]
  | null => by rw [All, within, List.forall_mem_singleton]

theorem allParams_within_iff :
    ∀ {params : List Expr}, AllParams P params ↔ ∀ d ∈ withinParams params, P d
  | [] => by simp [AllParams, withinParams]
  | e :: params => by
    rw [AllParams, withinParams, List.forall_mem_append, all_iff, allParams_within_iff]

theorem allHash_within_iff :
    ∀ {hash : List (String × Expr)}, AllHash P hash ↔ ∀ d ∈ withinHash hash, P d
  | [] => by simp [AllHash, withinHash]
  | (key, e) :: hash => by
    rw [AllHash, withinHash, List.forall_mem_append, all_iff, allHash_within_iff]

end

mutual

/-- A condition on all of an expression is one on all of each expression inside it. -/
theorem All.of_mem_within : ∀ {e : Expr}, e.All P → ∀ d ∈ e.within, d.All P
  | path p, h, d, hd => by
    rw [within, List.mem_singleton] at hd
    exact hd ▸ h
  | call helper params hash, h, d, hd => by
    rw [within, List.mem_cons, List.mem_append] at hd
    obtain rfl | hd | hd := hd
    · exact h
    · exact AllParams.of_mem_within h.2.1 d hd
    · exact AllHash.of_mem_within h.2.2 d hd
  | string s, h, d, hd => by
    rw [within, List.mem_singleton] at hd
    exact hd ▸ h
  | number n, h, d, hd => by
    rw [within, List.mem_singleton] at hd
    exact hd ▸ h
  | boolean b, h, d, hd => by
    rw [within, List.mem_singleton] at hd
    exact hd ▸ h
  | undefined, h, d, hd => by
    rw [within, List.mem_singleton] at hd
    exact hd ▸ h
  | null, h, d, hd => by
    rw [within, List.mem_singleton] at hd
    exact hd ▸ h

theorem AllParams.of_mem_within :
    ∀ {params : List Expr}, AllParams P params → ∀ d ∈ withinParams params, d.All P
  | e :: params, h, d, hd => by
    rw [withinParams, List.mem_append] at hd
    obtain hd | hd := hd
    · exact h.1.of_mem_within d hd
    · exact AllParams.of_mem_within h.2 d hd

theorem AllHash.of_mem_within :
    ∀ {hash : List (String × Expr)}, AllHash P hash → ∀ d ∈ withinHash hash, d.All P
  | (key, e) :: hash, h, d, hd => by
    rw [withinHash, List.mem_append] at hd
    obtain hd | hd := hd
    · exact h.1.of_mem_within d hd
    · exact AllHash.of_mem_within h.2 d hd

end

/-- A condition that follows from two others holds wherever both do. -/
theorem All.combine {e : Expr} (h : ∀ d, P d → Q d → R d) (hp : e.All P) (hq : e.All Q) :
    e.All R := by
  rw [all_iff] at *
  exact fun d hd => h d (hp d hd) (hq d hd)

theorem All.mono {e : Expr} (h : ∀ d, P d → Q d) (he : e.All P) : e.All Q :=
  he.combine (fun d hd _ => h d hd) he

theorem All.self {e : Expr} (h : e.All P) : P e := by
  cases e with
  | call helper params hash => exact h.1
  | _ => exact h

end

end Expr

def Arguments.All (P : Expr → Prop) (args : Arguments) : Prop :=
  Expr.AllParams P args.params ∧ Expr.AllHash P args.hash

def Arguments.within (args : Arguments) : List Expr :=
  Expr.withinParams args.params ++ Expr.withinHash args.hash

theorem Arguments.all_iff {P : Expr → Prop} {args : Arguments} :
    args.All P ↔ ∀ e ∈ args.within, P e := by
  rw [All, within, List.forall_mem_append, Expr.allParams_within_iff, Expr.allHash_within_iff]

theorem Arguments.All.of_mem_within {P : Expr → Prop} {args : Arguments} (h : args.All P) :
    ∀ e ∈ args.within, e.All P := by
  intro e he
  rw [Arguments.within, List.mem_append] at he
  obtain he | he := he
  · exact h.1.of_mem_within e he
  · exact h.2.of_mem_within e he

theorem Arguments.All.combine {P Q R : Expr → Prop} {args : Arguments}
    (h : ∀ e, P e → Q e → R e) (hp : args.All P) (hq : args.All Q) : args.All R := by
  rw [all_iff] at *
  exact fun e he => h e (hp e he) (hq e he)

theorem Arguments.All.mono {P Q : Expr → Prop} {args : Arguments} (h : ∀ e, P e → Q e)
    (hargs : args.All P) : args.All Q :=
  hargs.combine (fun e he _ => h e he) hargs

mutual

def Statement.All (P : Statement → Prop) : Statement → Prop
  | .block helper args ⟨body, blockParams⟩ inverse =>
    P (.block helper args ⟨body, blockParams⟩ inverse) ∧ AllBody P body ∧ AllInverse P inverse
  | .content text => P (.content text)
  | .comment text => P (.comment text)
  | .mustache head args escaped => P (.mustache head args escaped)
  | .embed name args => P (.embed name args)

def AllBody (P : Statement → Prop) : List Statement → Prop
  | [] => True
  | s :: body => s.All P ∧ AllBody P body

def AllInverse (P : Statement → Prop) : Option Program → Prop
  | none => True
  | some ⟨body, _⟩ => AllBody P body

end

theorem Statement.all_block {P : Statement → Prop} {helper : Path} {args : Arguments}
    {program : Program} {inverse : Option Program} :
    (Statement.block helper args program inverse).All P ↔
      P (.block helper args program inverse) ∧ AllBody P program.body ∧ AllInverse P inverse := by
  obtain ⟨body, blockParams⟩ := program
  rw [All]

theorem allInverse_some {P : Statement → Prop} {program : Program} :
    AllInverse P (some program) ↔ AllBody P program.body := by
  obtain ⟨body, blockParams⟩ := program
  rw [AllInverse]

theorem allBody_iff {P : Statement → Prop} {body : List Statement} :
    AllBody P body ↔ ∀ s ∈ body, s.All P := by
  induction body with
  | nil => simp [AllBody]
  | cons s body ih => simp [AllBody, ih]

theorem allBody_reverse {P : Statement → Prop} {body : List Statement} :
    AllBody P body.reverse ↔ AllBody P body := by
  simp only [allBody_iff, List.mem_reverse]

/-- A word that can be printed: no blank, mark, quote or brace, and at least one character. -/
def IsWord (w : List Char) : Prop :=
  w ≠ [] ∧ ∀ c ∈ w, Token.endsWord c = false ∧ c ≠ '{' ∧ c ≠ '}'

theorem isWord_iff (w : List Char) :
    (!w.isEmpty && w.all fun c => !Token.endsWord c && c != '{' && c != '}') = true ↔
      IsWord w := by
  simp [IsWord, and_assoc]

instance (w : List Char) : Decidable (IsWord w) :=
  decidable_of_iff _ (isWord_iff w)

/-- Whether a word stands for a value and not for a reference. -/
def isLiteralWord (w : List Char) : Bool :=
  w = "true".toList || w = "false".toList || w = "undefined".toList || w = "null".toList ||
    Expr.isNumber w

/-- A reference that its spelling determines. -/
structure Path.Normal (p : Path) : Prop where
  spelled : p = Path.parse p.spelling
  word : IsWord p.spelling.toList
  reference : isLiteralWord p.spelling.toList = false

def Expr.Normal : Expr → Prop
  | .path p => p.Normal
  | .call helper _ hash => helper.Normal ∧ ∀ pair ∈ hash, IsWord pair.1.toList
  | .number n => IsWord n.toList ∧ Expr.isNumber n.toList = true
  | _ => True

def Arguments.Normal (args : Arguments) : Prop :=
  args.All Expr.Normal ∧ ∀ pair ∈ args.hash, IsWord pair.1.toList

def Statement.isContent : Statement → Bool
  | .content _ => true
  | _ => false

def Apart : List Statement → Prop
  | s :: t :: body => (s.isContent = true → t.isContent = false) ∧ Apart (t :: body)
  | _ => True

theorem apart_tail {s : Statement} {body : List Statement} (h : Apart (s :: body)) :
    Apart body := by
  cases body with
  | nil => trivial
  | cons t body => exact h.2

def Statement.Normal : Statement → Prop
  | .content text =>
    text ≠ "" ∧ ¬ Tag.braces <:+: text.toList ∧
      text.toList.getLast? ≠ some '{' ∧ text.toList.getLast? ≠ some '\\'
  | .comment text =>
    ¬ ['-', '-', '}', '}'] <:+: text.toList ∧ ¬ ['-', '-', '~', '}', '}'] <:+: text.toList
  | .mustache head args _ => head.All Expr.Normal ∧ args.Normal
  | .block helper args program inverse =>
    helper.Normal ∧ args.Normal ∧ (∀ name ∈ program.blockParams, IsWord name.toList) ∧
      Apart program.body ∧ ∀ other ∈ inverse, Apart other.body
  | .embed name args => name.All Expr.Normal ∧ args.Normal

/-- A program whose texts, words and references are determined by their spelling. -/
def Program.Normal (p : Program) : Prop :=
  Apart p.body ∧ AllBody Statement.Normal p.body

/-- A backslash at the end of a string would protect its closing quote. -/
def Expr.Expressible : Expr → Prop
  | .string s => s.toList.getLast? ≠ some '\\'
  | _ => True

/-- The characters that tell the kind of a tag. -/
def isSign (c : Char) : Bool :=
  c = '#' || c = '/' || c = '^' || c = '*' || c = '>' || c = '&'

/-- A head that an escaped interpolation can begin with: it would otherwise be read as a tag
of another kind. -/
def Expr.CanBegin : Expr → Prop
  | .path p => p.spelling ≠ "else" ∧ ∀ c ∈ p.spelling.toList.head?, isSign c = false
  | _ => True

def Expr.isCall : Expr → Bool
  | .call .. => true
  | _ => false

def Statement.Expressible : Statement → Prop
  | .mustache head args escaped =>
    head.isCall = false ∧ (escaped = true → head.CanBegin) ∧
      head.All Expr.Expressible ∧ args.All Expr.Expressible
  | .block _ args _ inverse =>
    args.All Expr.Expressible ∧ ∀ other ∈ inverse, other.blockParams = []
  | .embed name args => name.All Expr.Expressible ∧ args.All Expr.Expressible
  | _ => True

mutual

/-- The number of blocks around the innermost statement. -/
def Statement.height : Statement → Nat
  | .block _ _ ⟨body, _⟩ inverse => max (heightBody body) (heightInverse inverse) + 1
  | _ => 0

def heightBody : List Statement → Nat
  | [] => 0
  | s :: body => max s.height (heightBody body)

def heightInverse : Option Program → Nat
  | none => 0
  | some ⟨body, _⟩ => heightBody body

end

/-- A program that a template can spell. -/
structure Program.Expressible (p : Program) : Prop where
  root : p.blockParams = []
  statements : AllBody Statement.Expressible p.body
  nesting : heightBody p.body ≤ maxNesting

end Stencil.Handlebars
