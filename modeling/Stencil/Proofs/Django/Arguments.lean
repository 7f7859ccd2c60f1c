import Stencil.Proofs.Django.Token
import Stencil.Text.Blank

/-!
# The arguments of a tag

A tag is split into arguments at the blanks that stand outside of its quoted
texts. Such a text ends at the next double quote that has no backslash before
it, and a backslash before a double quote stands for the quote alone. A tag
that is put together from bare words and from texts between double quotes, with
nothing protected, is split the way it was meant exactly when each of these
parts is safe by itself.
-/

namespace Stencil.Django

/-- What the reader of a tag meets: a character, or a whole text between double quotes. -/
inductive Chunk
  | plain (c : Char)
  | quoted (value : List Char)
deriving Repr, DecidableEq

namespace Chunk

def separates : Chunk → Bool
  | plain c => Text.isBlank c
  | quoted _ => false

/-- Reads a tag from outside of its quoted texts, or from inside of one that has been read so
far, its last character first. A text that is left open makes the tag unreadable. -/
def read : Option (List Char) → List Char → Option (List Chunk)
  | none, [] => some []
  | none, c :: s => if c = '"' then read (some []) s else (read none s).map (plain c :: ·)
  | some _, [] => none
  | some text, '\\' :: '"' :: s => read (some ('"' :: text)) s
  | some text, c :: s =>
    if c = '"' then (read none s).map (quoted text.reverse :: ·) else read (some (c :: text)) s

/-- The arguments among some chunks, behind what has been read of one. -/
def split : List Chunk → List Chunk → List (List Chunk)
  | argument, [] => if argument = [] then [] else [argument]
  | argument, chunk :: rest =>
    if chunk.separates then (if argument = [] then [] else [argument]) ++ split [] rest
    else split (argument ++ [chunk]) rest

/-- The chunks that belong to an argument. -/
def significant (chunks : List Chunk) : List Chunk :=
  chunks.filter fun chunk => !chunk.separates

end Chunk

def arguments? (tag : List Char) : Option (List (List Chunk)) :=
  (Chunk.read none tag).map (Chunk.split [])

/-- A stretch of a tag as it is put together. -/
inductive Part
  /-- Words that are written as they are. -/
  | bare (text : String)
  /-- A text that is written between double quotes. -/
  | quoted (text : String)
deriving Repr, DecidableEq

namespace Part

def spelling : Part → List Char
  | bare text => text.toList
  | quoted text => '"' :: (text.toList ++ ['"'])

def meaning : Part → List Chunk
  | bare text => text.toList.map .plain
  | quoted text => [.quoted text.toList]

/-- The part has no double quote that is not meant as one, and no backslash that protects the
closing quote. -/
def Safe : Part → Prop
  | bare text => '"' ∉ text.toList
  | quoted text => '"' ∉ text.toList ∧ text.toList.getLast? ≠ some '\\'

instance : (part : Part) → Decidable part.Safe
  | bare text => inferInstanceAs (Decidable ('"' ∉ text.toList))
  | quoted text =>
    inferInstanceAs (Decidable ('"' ∉ text.toList ∧ text.toList.getLast? ≠ some '\\'))

end Part

def spell (line : List Part) : List Char :=
  line.flatMap Part.spelling

def meantArguments (line : List Part) : List (List Chunk) :=
  Chunk.split [] (line.flatMap Part.meaning)

@[simp] theorem spell_nil : spell [] = [] := rfl

@[simp] theorem spell_cons (part : Part) (line : List Part) :
    spell (part :: line) = part.spelling ++ spell line :=
  List.flatMap_cons

@[simp] theorem spell_append (first second : List Part) :
    spell (first ++ second) = spell first ++ spell second :=
  List.flatMap_append

namespace Chunk

/-- Splitting loses the separators and nothing else. -/
theorem flatten_split (argument chunks : List Chunk) :
    (split argument chunks).flatten = argument ++ significant chunks := by
  have hlone : ((if argument = [] then [] else [argument] : List (List Chunk))).flatten =
      argument := by
    split
    · next h => simp [h]
    · simp
  induction chunks generalizing argument with
  | nil => simpa [split, significant] using hlone
  | cons chunk rest ih =>
    rw [split]
    cases hchunk : chunk.separates with
    | true =>
      have hrest := ih [] (by simp)
      simp only [if_true, List.flatten_append, hlone, hrest]
      simp [significant, hchunk]
    | false =>
      have hrest := ih (argument ++ [chunk]) (by simp)
      simp [hrest, significant, hchunk]

theorem split_blank_cons {c : Char} (h : Text.isBlank c = true) (chunks : List Chunk) :
    split [] (plain c :: chunks) = split [] chunks := by
  simp [split, separates, h]

theorem split_append_blank {c : Char} (h : Text.isBlank c = true) (argument chunks : List Chunk) :
    split argument (chunks ++ [plain c]) = split argument chunks := by
  induction chunks generalizing argument with
  | nil => simp [split, separates, h]
  | cons chunk rest ih => simp only [List.cons_append, split, ih]

theorem significant_append (first second : List Chunk) :
    significant (first ++ second) = significant first ++ significant second :=
  List.filter_append ..

theorem significant_cons {chunk : Chunk} (h : chunk.separates = false) (rest : List Chunk) :
    significant (chunk :: rest) = chunk :: significant rest := by
  simp [significant, h]

theorem significant_eq_of_split_eq {first second : List Chunk}
    (h : split [] first = split [] second) : significant first = significant second := by
  simpa [flatten_split] using congrArg List.flatten h

theorem read_quote_cons (s : List Char) : read none ('"' :: s) = read (some []) s := by
  simp [read]

theorem read_plain_append {text : List Char} (h : '"' ∉ text) (s : List Char) :
    read none (text ++ s) = (read none s).map (text.map plain ++ ·) := by
  induction text with
  | nil => simp
  | cons c text ih =>
    obtain ⟨hc, htext⟩ : '"' ≠ c ∧ '"' ∉ text := by simpa using h
    rw [List.cons_append, read, if_neg (Ne.symm hc), ih htext, Option.map_map]
    rfl

theorem read_protected (text s : List Char) :
    read (some text) ('\\' :: '"' :: s) = read (some ('"' :: text)) s := by
  rw [read]

theorem read_close (text s : List Char) :
    read (some text) ('"' :: s) = (read none s).map (quoted text.reverse :: ·) := by
  simp [read]

theorem read_inside {c : Char} (hc : c ≠ '"') (text : List Char) {s : List Char}
    (h : c = '\\' → s.head? ≠ some '"') :
    read (some text) (c :: s) = read (some (c :: text)) s := by
  rw [read, if_neg hc]
  rintro rest rfl rfl
  exact h rfl rfl

/-- A safe text is read to the quote behind it. -/
theorem read_safe_append {value : List Char} (hquote : '"' ∉ value)
    (hend : value.getLast? ≠ some '\\') (text s : List Char) :
    read (some text) (value ++ '"' :: s) =
      (read none s).map (quoted (text.reverse ++ value) :: ·) := by
  induction value generalizing text with
  | nil => simp [read_close]
  | cons c value ih =>
    obtain ⟨hc, hvalue⟩ : '"' ≠ c ∧ '"' ∉ value := by simpa using hquote
    have hnext : c = '\\' → (value ++ '"' :: s).head? ≠ some '"' := by
      rintro rfl
      cases value with
      | nil => simp at hend
      | cons d value =>
        have hd : d ≠ '"' := fun hd => hvalue (by simp [hd])
        simpa using hd
    have hlast : value.getLast? ≠ some '\\' := by
      cases value with
      | nil => simp
      | cons d value => simpa using hend
    rw [List.cons_append, read_inside (Ne.symm hc) text hnext, ih hvalue hlast]
    simp

/-- What has been read of a quoted text stays at the front of it. -/
theorem exists_of_read {place : Option (List Char)} {s : List Char} {chunks : List Chunk}
    (h : read place s = some chunks) :
    ∀ text ∈ place, ∃ more rest, chunks = quoted (text.reverse ++ more) :: rest := by
  fun_induction read place s generalizing chunks with
  | case5 text s ih =>
    rintro _ ⟨⟩
    obtain ⟨more, rest, rfl⟩ := ih h _ rfl
    exact ⟨'"' :: more, rest, by simp⟩
  | case6 text s =>
    rintro _ ⟨⟩
    obtain ⟨rest, -, rfl⟩ := Option.map_eq_some_iff.mp h
    exact ⟨[], rest, by simp⟩
  | case7 text c s _ hc ih =>
    rintro _ ⟨⟩
    obtain ⟨more, rest, rfl⟩ := ih h _ rfl
    exact ⟨c :: more, rest, by simp⟩
  | case4 => cases h
  | _ => rintro _ ⟨⟩

/-- A text that is not safe is not read back: the first quote in it ends it, or loses the
backslash before it, or the closing quote loses one. -/
theorem ne_of_read_not_safe {value : List Char}
    (hbad : ¬ ('"' ∉ value ∧ value.getLast? ≠ some '\\')) {text s : List Char}
    {chunks : List Chunk} (h : read (some text) (value ++ '"' :: s) = some chunks)
    (rest : List Chunk) : chunks ≠ quoted (text.reverse ++ value) :: rest := by
  rintro rfl
  induction value generalizing text with
  | nil => simp at hbad
  | cons c value ih =>
    by_cases hc : c = '"'
    · subst hc
      rw [List.cons_append, read_close] at h
      obtain ⟨_, -, hread⟩ := Option.map_eq_some_iff.mp h
      simp at hread
    by_cases hnext : c = '\\' ∧ (value ++ '"' :: s).head? = some '"'
    · obtain ⟨rfl, hhead⟩ := hnext
      obtain ⟨s', hs'⟩ : ∃ s', value ++ '"' :: s = '"' :: s' := by
        cases value with
        | nil => exact ⟨s, rfl⟩
        | cons d value => exact ⟨value ++ '"' :: s, by simpa using hhead⟩
      rw [List.cons_append, hs', read_protected] at h
      obtain ⟨more, rest', hread⟩ := exists_of_read h _ rfl
      simp at hread
    · rw [List.cons_append, read_inside hc text fun hback hhead => hnext ⟨hback, hhead⟩] at h
      have hread : read (some (c :: text)) (value ++ '"' :: s) =
          some (quoted ((c :: text).reverse ++ value) :: rest) := by
        simpa using h
      refine ih ?_ hread
      intro hsafe
      refine hbad ⟨by simpa [Ne.symm hc] using hsafe.1, ?_⟩
      cases value with
      | nil =>
        have hback : c ≠ '\\' := fun hback => hnext ⟨hback, rfl⟩
        simpa using hback
      | cons d value => simpa using hsafe.2

end Chunk

namespace Part

theorem read_safe {part : Part} (h : part.Safe) (s : List Char) :
    Chunk.read none (part.spelling ++ s) = (Chunk.read none s).map (part.meaning ++ ·) := by
  cases part with
  | bare text => exact Chunk.read_plain_append h s
  | quoted text =>
    have hread := Chunk.read_safe_append h.1 h.2 [] s
    simpa [spelling, meaning, Chunk.read_quote_cons] using hread

/-- Behind an unsafe part nothing is read as it was meant. -/
theorem significant_ne_of_read_not_safe {part : Part} (h : ¬ part.Safe) {s : List Char}
    {chunks : List Chunk} (hread : Chunk.read none (part.spelling ++ s) = some chunks)
    (rest : List Chunk) :
    Chunk.significant chunks ≠ Chunk.significant (part.meaning ++ rest) := by
  cases part with
  | bare text =>
    -- what precedes the first quote is read as it was meant, and the quote is not
    obtain ⟨before, after, htext, hbefore⟩ :=
      List.eq_append_cons_of_mem (Classical.not_not.mp h)
    rw [spelling, htext, List.append_assoc, Chunk.read_plain_append hbefore] at hread
    obtain ⟨inner, hinner, rfl⟩ := Option.map_eq_some_iff.mp hread
    rw [List.cons_append, Chunk.read_quote_cons] at hinner
    obtain ⟨value, more, rfl⟩ := Chunk.exists_of_read hinner _ rfl
    rw [meaning, htext, List.map_append, List.map_cons, List.append_assoc, List.cons_append,
      Chunk.significant_append, Chunk.significant_append, Chunk.significant_cons rfl,
      Chunk.significant_cons (by decide)]
    simp
  | quoted text =>
    rw [spelling, List.cons_append, Chunk.read_quote_cons, List.append_assoc] at hread
    obtain ⟨value, more, rfl⟩ := Chunk.exists_of_read hread _ rfl
    have hne := Chunk.ne_of_read_not_safe h hread more
    rw [meaning, List.singleton_append, Chunk.significant_cons rfl, Chunk.significant_cons rfl]
    intro heq
    exact hne (by simpa using (List.cons.inj heq).1)

end Part

/-- Safe parts are read as they were meant. -/
theorem read_spell {line : List Part} (h : ∀ part ∈ line, part.Safe) (s : List Char) :
    Chunk.read none (spell line ++ s) =
      (Chunk.read none s).map (line.flatMap Part.meaning ++ ·) := by
  induction line with
  | nil => simp
  | cons part line ih =>
    rw [List.forall_mem_cons] at h
    rw [spell_cons, List.append_assoc, Part.read_safe h.1, ih h.2, Option.map_map]
    simp [Function.comp_def]

/-- Parts that are read as they were meant, up to what separates arguments, are safe. -/
theorem safe_of_read_spell {line : List Part} {s : List Char} {chunks rest : List Chunk}
    (hread : Chunk.read none (spell line ++ s) = some chunks)
    (h : Chunk.significant chunks = Chunk.significant (line.flatMap Part.meaning ++ rest)) :
    ∀ part ∈ line, part.Safe := by
  induction line generalizing chunks with
  | nil => simp
  | cons part line ih =>
    rw [spell_cons, List.append_assoc] at hread
    rw [List.flatMap_cons, List.append_assoc] at h
    by_cases hpart : part.Safe
    · rw [Part.read_safe hpart] at hread
      obtain ⟨inner, hinner, rfl⟩ := Option.map_eq_some_iff.mp hread
      rw [Chunk.significant_append, Chunk.significant_append] at h
      exact List.forall_mem_cons.mpr ⟨hpart, ih hinner (List.append_cancel_left h)⟩
    · exact absurd h (Part.significant_ne_of_read_not_safe hpart hread _)

/-- The tag that the parts make up is split into the arguments that were meant exactly when every
part is safe. -/
theorem arguments?_spell_iff (line : List Part) :
    arguments? (' ' :: (spell line ++ [' '])) = some (meantArguments line) ↔
      ∀ part ∈ line, part.Safe := by
  have hblank : Text.isBlank ' ' = true := by decide
  have hopen (s : List Char) :
      Chunk.read none (' ' :: s) = (Chunk.read none s).map (.plain ' ' :: ·) :=
    Chunk.read_plain_append (show '"' ∉ [' '] by decide) s
  constructor
  · intro h
    rw [arguments?, hopen, Option.map_map] at h
    obtain ⟨chunks, hread, hsplit⟩ := Option.map_eq_some_iff.mp h
    have hsplit : Chunk.split [] chunks = meantArguments line :=
      (Chunk.split_blank_cons hblank chunks).symm.trans hsplit
    have hsame : Chunk.significant chunks =
        Chunk.significant (line.flatMap Part.meaning ++ []) := by
      rw [List.append_nil]
      exact Chunk.significant_eq_of_split_eq hsplit
    exact safe_of_read_spell hread hsame
  · intro h
    have hend : Chunk.read none [' '] = some [.plain ' '] := by decide
    rw [arguments?, hopen, read_spell h, hend, Option.map_some, Option.map_some, Option.map_some,
      Chunk.split_blank_cons hblank, Chunk.split_append_blank hblank, meantArguments]

end Stencil.Django
