import Stencil.Django.Piece
import Stencil.Proofs.Text

/-!
# How Django reads a template

A template is cut into tags and the texts between them. A tag begins at an
opening brace with one of three signs and ends at the first mark that closes its
kind, provided no line ends before; everything else is text. Pieces are written
one after the other without regard to this, so a piece is read back as one tag
exactly when it holds no line feed and no mark of its own kind before its end.
-/

namespace Stencil.Django

inductive TagKind
  | block
  | output
  | comment
deriving Repr, DecidableEq

namespace TagKind

/-- The character behind the opening brace. -/
def sign : TagKind → Char
  | block => '%'
  | output => '{'
  | comment => '#'

/-- The character before the closing brace. -/
def closingSign : TagKind → Char
  | block => '%'
  | output => '}'
  | comment => '#'

/-- What a tag ends with. -/
def mark (kind : TagKind) : List Char :=
  [kind.closingSign, '}']

def ofSign? (c : Char) : Option TagKind :=
  if c = '%' then some block
  else if c = '{' then some output
  else if c = '#' then some comment
  else none

@[simp] theorem ofSign?_sign (kind : TagKind) : ofSign? kind.sign = some kind := by
  cases kind <;> rfl

end TagKind

/-- A stretch of a template as Django reads it. -/
inductive Token
  | text (run : List Char)
  | tag (kind : TagKind) (inner : List Char)
deriving Repr, DecidableEq

/-- The inside of a tag can be read to its end: it has no line feed, and the mark behind it is
the first one. -/
def TagKind.Closes (kind : TagKind) (inner : List Char) : Prop :=
  '\n' ∉ inner ∧ ¬ kind.mark <:+: inner ++ [kind.closingSign]

/-- A tag at the front of a text, as its kind, its inside and what follows. -/
def tag? : List Char → Option (TagKind × List Char × List Char)
  | '{' :: c :: s =>
    match TagKind.ofSign? c with
    | none => none
    | some kind =>
      match Text.cut kind.mark s with
      | none => none
      | some (inner, rest) => if '\n' ∈ inner then none else some (kind, inner, rest)
  | _ => none

theorem tag?_append {kind : TagKind} {inner : List Char} (h : kind.Closes inner)
    (rest : List Char) :
    tag? ('{' :: kind.sign :: (inner ++ kind.mark ++ rest)) = some (kind, inner, rest) := by
  have hcut : Text.cut kind.mark (inner ++ kind.mark ++ rest) = some (inner, rest) := by
    rw [List.append_assoc]
    exact Text.cut_pair_append h.2 rest
  simp only [tag?, TagKind.ofSign?_sign, hcut, h.1, if_false]

theorem closes_of_tag? {s inner rest : List Char} {kind : TagKind}
    (h : tag? s = some (kind, inner, rest)) : kind.Closes inner ∧ rest.length < s.length := by
  unfold tag? at h
  split at h
  · split at h
    · cases h
    · split at h
      · cases h
      · next hcut =>
        split at h
        · cases h
        · next hline =>
          cases h
          refine ⟨⟨hline, Text.not_infix_of_cut hcut⟩, ?_⟩
          have := congrArg List.length (Text.append_of_cut hcut)
          simp only [List.length_append, List.length_cons] at this ⊢
          omega
  · cases h

theorem tag?_eq_none {c : Char} (h : c ≠ '{') (s : List Char) : tag? (c :: s) = none := by
  unfold tag?
  split
  · next heq =>
    cases heq
    exact absurd rfl h
  · rfl

namespace Token

/-- Puts a character in front of tokens; texts that touch are one text. -/
def consChar : Char → List Token → List Token
  | c, text run :: tokens => text (c :: run) :: tokens
  | c, tokens => text [c] :: tokens

def consText (run : List Char) (tokens : List Token) : List Token :=
  run.foldr consChar tokens

def lex : List Char → List Token
  | [] => []
  | c :: s =>
    match h : tag? (c :: s) with
    | some (kind, inner, rest) =>
      have : rest.length ≤ s.length := Nat.le_of_lt_succ (closes_of_tag? h).2
      tag kind inner :: lex rest
    | none => consChar c (lex s)
termination_by s => s.length

theorem lex_nil : lex [] = [] := by
  rw [lex]

theorem lex_of_tag? {s inner rest : List Char} {kind : TagKind}
    (h : tag? s = some (kind, inner, rest)) : lex s = tag kind inner :: lex rest := by
  cases s with
  | nil => cases h
  | cons c s =>
    rw [lex]
    split
    · next heq =>
      rw [h] at heq
      cases heq
      rfl
    · next heq =>
      rw [h] at heq
      cases heq

theorem lex_of_tag?_eq_none {c : Char} {s : List Char} (h : tag? (c :: s) = none) :
    lex (c :: s) = consChar c (lex s) := by
  rw [lex]
  split
  · next heq =>
    rw [h] at heq
    cases heq
  · rfl

/-- A text without opening braces is read as such. -/
theorem lex_text_append {run : List Char} (h : '{' ∉ run) (rest : List Char) :
    lex (run ++ rest) = consText run (lex rest) := by
  induction run with
  | nil => rfl
  | cons c run ih =>
    rw [List.mem_cons, not_or] at h
    rw [List.cons_append, lex_of_tag?_eq_none (tag?_eq_none (Ne.symm h.1) _), ih h.2]
    rfl

/-- A tag is read up to its mark. -/
theorem lex_tag_append {kind : TagKind} {inner : List Char} (h : kind.Closes inner)
    (rest : List Char) :
    lex ('{' :: kind.sign :: (inner ++ kind.mark ++ rest)) = tag kind inner :: lex rest :=
  lex_of_tag? (tag?_append h rest)

theorem mem_consChar {kind : TagKind} {inner : List Char} {c : Char} {tokens : List Token} :
    tag kind inner ∈ consChar c tokens ↔ tag kind inner ∈ tokens := by
  cases tokens with
  | nil => simp [consChar]
  | cons t tokens => cases t <;> simp [consChar]

/-- Whatever the template, the tags that are read can be read to their ends. -/
theorem closes_of_mem_lex {s inner : List Char} {kind : TagKind} (h : tag kind inner ∈ lex s) :
    kind.Closes inner := by
  induction s using lex.induct with
  | case1 => simp [lex_nil] at h
  | case2 c s found front rest htag hlength ih =>
    rw [lex_of_tag? htag] at h
    rcases List.mem_cons.mp h with heq | h
    · cases heq
      exact (closes_of_tag? htag).1
    · exact ih h
  | case3 c s htag ih =>
    rw [lex_of_tag?_eq_none htag, mem_consChar] at h
    exact ih h

/-- The tokens with texts that touch made one and empty texts left out. -/
def join : List Token → List Token
  | [] => []
  | text run :: tokens => consText run (join tokens)
  | tag kind inner :: tokens => tag kind inner :: join tokens

theorem mem_join {kind : TagKind} {inner : List Char} {tokens : List Token} :
    tag kind inner ∈ join tokens ↔ tag kind inner ∈ tokens := by
  have hrun (run : List Char) (tokens : List Token) :
      tag kind inner ∈ consText run tokens ↔ tag kind inner ∈ tokens := by
    induction run with
    | nil => rfl
    | cons c run ih => exact mem_consChar.trans ih
  induction tokens with
  | nil => rfl
  | cons t tokens ih =>
    cases t with
    | text run => simp [join, hrun, ih]
    | tag other front => simp [join, ih]

def lexeme : Token → List Char
  | text run => run
  | tag kind inner => '{' :: kind.sign :: (inner ++ kind.mark)

/-- A token that is read back: a text in which no tag can begin, or a tag that can be read to its
end. -/

def Whole : Token → Prop
  | text run => '{' ∉ run
  | tag kind inner => kind.Closes inner

/-- Whole tokens are read back, however they are put together. -/
theorem lex_flatMap_lexeme {tokens : List Token} (h : ∀ t ∈ tokens, t.Whole) :
    lex (tokens.flatMap lexeme) = join tokens := by
  induction tokens with
  | nil => exact lex_nil
  | cons t tokens ih =>
    have hfirst := h t List.mem_cons_self
    have hrest := ih fun other hother => h other (List.mem_cons_of_mem t hother)
    rw [List.flatMap_cons]
    cases t with
    | text run =>
      rw [lexeme, lex_text_append hfirst, hrest]
      rfl
    | tag kind inner =>
      rw [lexeme, List.cons_append, List.cons_append, lex_tag_append hfirst, hrest]
      rfl

/-- Among tokens whose texts have no opening braces, all are read back exactly when every tag
can be read to its end. -/
theorem lex_flatMap_lexeme_iff {tokens : List Token}
    (htext : ∀ run, text run ∈ tokens → '{' ∉ run) :
    lex (tokens.flatMap lexeme) = join tokens ↔
      ∀ kind inner, tag kind inner ∈ tokens → kind.Closes inner := by
  constructor
  · intro h kind inner hmem
    rw [← mem_join, ← h] at hmem
    exact closes_of_mem_lex hmem
  · intro h
    apply lex_flatMap_lexeme
    intro t ht
    cases t with
    | text run => exact htext run ht
    | tag kind inner => exact h kind inner ht

end Token

/-- What stands between the two characters at the front and the two at the back of a tag. -/
def inside (tag : String) : List Char :=
  (tag.toList.drop 2).dropLast.dropLast

def Piece.token : Piece → Token
  | text content => .text content.toList
  | comment content => .tag .comment content.toList
  | output value safe => .tag .output (inside (output value safe).render)
  | keptOpen helper => .tag .output (inside (keptOpen helper).render)
  | keptElse => .tag .output (inside keptElse.render)
  | keptClose helper => .tag .output (inside (keptClose helper).render)
  | piece => .tag .block (inside piece.render)

theorem inside_eq {tag : String} {a b c d : Char} {inner : List Char}
    (h : tag.toList = a :: b :: (inner ++ [c, d])) : inside tag = inner := by
  rw [inside, h]
  simp

theorem blockTag_toList (words : String) :
    (blockTag words).toList = '{' :: '%' :: (' ' :: words.toList ++ [' '] ++ ['%', '}']) := by
  simp [blockTag]

theorem inside_blockTag (words : String) :
    inside (blockTag words) = ' ' :: words.toList ++ [' '] :=
  inside_eq (blockTag_toList words)

theorem lexeme_inside {kind : TagKind} {tag : String} (inner : List Char)
    (h : tag.toList = '{' :: kind.sign :: (inner ++ kind.mark)) :
    (Token.tag kind (inside tag)).lexeme = tag.toList := by
  rw [inside_eq h, h]
  rfl

/-- The token of a piece is spelled like the piece. -/
theorem Piece.token_lexeme (piece : Piece) : piece.token.lexeme = piece.render.toList := by
  cases piece with
  | text content => rfl
  | comment content =>
    simp [token, render, Token.lexeme, TagKind.sign, TagKind.mark, TagKind.closingSign]
  | output value safe =>
    apply lexeme_inside (' ' :: (value ++ if safe then "|safe" else "").toList ++ [' '])
    simp [render, TagKind.sign, TagKind.mark, TagKind.closingSign]
  | keptOpen helper =>
    apply lexeme_inside ('#' :: ' ' :: helper.toList ++ [' '])
    simp [render, TagKind.sign, TagKind.mark, TagKind.closingSign]
  | keptElse => rfl
  | keptClose helper =>
    apply lexeme_inside ('/' :: helper.toList)
    simp [render, TagKind.sign, TagKind.mark, TagKind.closingSign]
  | _ => exact lexeme_inside _ (blockTag_toList _)

theorem render_toList (pieces : List Piece) :
    (Fragment.render pieces).toList = (pieces.map Piece.token).flatMap Token.lexeme := by
  unfold Fragment.render
  induction pieces with
  | nil => rfl
  | cons piece pieces ih =>
    rw [List.map_cons, concat, String.toList_append, ih, ← Piece.token_lexeme]
    rfl

/-- A piece that is read back as one tag, if it is a tag at all. -/
def Piece.Closes (piece : Piece) : Prop :=
  match piece.token with
  | .text _ => True
  | .tag kind inner => kind.Closes inner

/-- Pieces whose texts have no opening braces are read back, each tag as one token, exactly when
every piece that is a tag can be read to its end. -/
theorem lex_render_eq_iff {pieces : List Piece}
    (htext : ∀ content, .text content ∈ pieces → '{' ∉ content.toList) :
    Token.lex (Fragment.render pieces).toList = Token.join (pieces.map Piece.token) ↔
      ∀ piece ∈ pieces, piece.Closes := by
  have hruns : ∀ run, .text run ∈ pieces.map Piece.token → '{' ∉ run := by
    intro run hrun
    obtain ⟨piece, hpiece, htoken⟩ := List.mem_map.mp hrun
    cases piece with
    | text content =>
      cases htoken
      exact htext content hpiece
    | _ => cases htoken
  rw [render_toList, Token.lex_flatMap_lexeme_iff hruns]
  constructor
  · intro h piece hpiece
    unfold Piece.Closes
    split
    · trivial
    · next kind inner htoken => exact h kind inner (htoken ▸ List.mem_map_of_mem hpiece)
  · intro h kind inner hmem
    obtain ⟨piece, hpiece, htoken⟩ := List.mem_map.mp hmem
    have hcloses := h piece hpiece
    rw [Piece.Closes, htoken] at hcloses
    exact hcloses

end Stencil.Django
