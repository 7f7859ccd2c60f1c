import Stencil.Handlebars.Scanner
import Stencil.Proofs.Bytes
import Stencil.Proofs.Except

/-!
# Tags in place

Reading a tag at a byte offset of the source gives what reading the text behind
its braces gives. Every offset that is computed on the way is the size of a part
of the source, so no slice fails.
-/

namespace Stencil.Handlebars

open Text (Position from? upTo? slice? find? scanUntil size size_append)

@[simp] theorem need_some {α : Type} (a : α) : need (some a) = .ok a := rfl

theorem Stop.ofFault_append (before after : List Char) (fault : Fault) :
    Stop.ofFault (before ++ after) (size before) fault =
      .fault ⟨Position.start.after before, fault⟩ := by
  rw [ofFault, Position.ofOffset_append]

namespace Tag

theorem isMark_closingBraces : Text.IsMark closingBraces :=
  .of_all nofun (by decide)

theorem isMark_closingBrace : Text.IsMark ['}'] :=
  .of_all nofun (by decide)

section
variable (front rest : List Char)

/-- A tilde at an offset is told by its byte. -/
theorem tilde_at_append :
    ((Text.bytes (front ++ rest))[size front]? == some '~'.toUInt8) = (dropTilde rest).1 := by
  rw [Text.getElem?_bytes_append, Bool.eq_iff_iff, beq_iff_eq,
    Text.head?_bytes_eq_iff (by decide)]
  cases rest with
  | nil => simp [dropTilde]
  | cons c rest =>
    by_cases hc : c = '~' <;> simp [dropTilde, hc]

theorem size_tilde (present : Bool) : size (tilde present) = if present then 1 else 0 := by
  cases present <;> rfl

theorem isPrefixOf_eq (mark s : List Char) : mark.isPrefixOf s = (Text.behind? mark s).isSome := by
  rw [Bool.eq_iff_iff, List.isPrefixOf_iff_prefix, Option.isSome_iff_ne_none, ne_eq,
    Text.behind?_eq_none_iff, not_not]

theorem tildeBefore_append (body : List Char) :
    tildeBefore (front ++ (body ++ rest)) (size front) (size front + size body) =
      .ok (dropTildeEnd body).2 := by
  by_cases hbody : body = []
  · rw [hbody, tildeBefore, if_neg (by simp)]
    rfl
  · have hpos := Text.size_pos hbody
    have hlast : (Text.bytes body).getLast? =
        some ((Text.bytes body).getLast (List.ne_nil_of_length_pos hpos)) :=
      List.getLast?_eq_some_getLast _
    rw [tildeBefore, if_pos (by omega), Text.getElem?_bytes_last _ _ hbody, hlast, need_some]
    refine congrArg Except.ok (Bool.eq_iff_iff.mpr ?_)
    have htilde := Text.getLast?_bytes_eq_iff (show Text.isNarrow '~' = true by decide) body
    rw [hlast, Option.some.injEq] at htilde
    rw [beq_iff_eq, htilde, dropTildeEnd]
    split <;> simp_all

theorem closeAt_append (form : List Char → Form) (body : List Char) :
    closeAt (front ++ (body ++ rest)) form (size front) (size front + size body) =
      .ok (form (dropTildeEnd body).1, (dropTildeEnd body).2, size front + size body + 2) := by
  rw [closeAt, tildeBefore_append, Except.ok_bind, dropTildeEnd]
  split
  · next hlast =>
    obtain ⟨kept, rfl⟩ := List.getLast?_eq_some_iff.mp hlast
    have hstop : size front + size (kept ++ ['~']) - 1 = size front + size kept := by
      rw [size_append]
      rfl
    rw [if_pos rfl, hstop, List.append_assoc, Text.slice?_append, List.dropLast_concat]
    rfl
  · rw [if_neg (by simp), Text.slice?_append]
    rfl

/-- The first of the two marks that end a dashed comment is where the comment ends. -/
theorem merge_find?_eq (s : List Char) :
    (find? ['-', '-', '}', '}'] s).merge min (find? ['-', '-', '~', '}', '}'] s) =
      (cutDashes s).map fun (body, _) => size body := by
  induction s with
  | nil => rfl
  | cons c s ih =>
    rw [Text.find?_cons, Text.find?_cons, cutDashes]
    cases Text.behind? ['-', '-', '}', '}'] (c :: s) with
    | some after =>
      cases (Text.behind? ['-', '-', '~', '}', '}'] (c :: s)).isSome <;>
        cases find? ['-', '-', '~', '}', '}'] s <;> simp
    | none =>
      cases Text.behind? ['-', '-', '~', '}', '}'] (c :: s) with
      | some after => cases find? ['-', '-', '}', '}'] s <;> simp
      | none =>
        have hshift (x y : Option Nat) : (x.map (c.utf8Size + ·)).merge min
            (y.map (c.utf8Size + ·)) = (x.merge min y).map (c.utf8Size + ·) := by
          cases x <;> cases y <;> simp [Nat.add_min_add_left]
        simp only [Option.isSome_none, Bool.false_eq_true, if_false]
        rw [hshift, ih, Option.map_map, Option.map_map]
        simp [Function.comp_def]

variable (blame : Fault → Stop)

theorem dashedAt_append (after : List Char) :
    dashedAt blame (front ++ after) after = match cutDashes after with
      | none => .error (blame .unclosedComment)
      | some (body, right, _) =>
        .ok (.dashed body, right, size front + size body + if right then 5 else 4) := by
  rw [dashedAt, merge_find?_eq]
  cases hcut : cutDashes after with
  | none => rfl
  | some found =>
    obtain ⟨body, right, rest⟩ := found
    have hafter := append_of_cutDashes hcut
    have hstart : size (front ++ after) - size after = size front := by
      rw [size_append, Nat.add_sub_cancel]
    have hright : ['-', '-', '~', '}', '}'].isPrefixOf
        ('-' :: '-' :: tilde right ++ closingBraces ++ rest) = right := by
      cases right <;> rfl
    simp only [Option.map_some, hstart]
    rw [← size_append, hafter, List.append_assoc, List.append_assoc, ← List.append_assoc front,
      Text.from?_append, size_append, List.append_assoc front, Text.slice?_append, need_some,
      Except.ok_bind, ← List.append_assoc, hright]
    rfl

theorem commentAt_append (s : List Char) :
    commentAt blame (front ++ s) (size front) = match Text.cut closingBraces s with
      | none => .error (blame .unclosedComment)
      | some (body, _) => .ok (.comment (dropTildeEnd body).1, (dropTildeEnd body).2,
          size front + size body + 2) := by
  rw [commentAt, Text.from?_append, need_some, Except.ok_bind, Text.find?_eq]
  cases hcut : Text.cut closingBraces s with
  | none => rfl
  | some found =>
    obtain ⟨body, rest⟩ := found
    rw [Text.append_of_cut hcut, List.append_assoc]
    exact closeAt_append front (closingBraces ++ rest) .comment body

theorem plainAt_append (s : List Char) :
    plainAt blame (front ++ s) (size front) =
      match Text.cutOutside closingBraces .outside s with
      | none => .error (blame .unclosedTag)
      | some (body, _) => .ok (.plain (dropTildeEnd body).1, (dropTildeEnd body).2,
          size front + size body + 2) := by
  rw [plainAt, Text.scanUntil_append isMark_closingBraces]
  cases hcut : Text.cutOutside closingBraces .outside s with
  | none => rfl
  | some found =>
    obtain ⟨body, rest⟩ := found
    rw [Text.append_of_cutOutside hcut, List.append_assoc]
    exact closeAt_append front (closingBraces ++ rest) .plain body

theorem tripleAt_append (s : List Char) :
    tripleAt blame (front ++ s) (size front) = match Text.cutOutside ['}'] .outside s with
      | none => .error (blame .unclosedTag)
      | some (body, after) =>
        match Text.behind? closingBraces (dropTilde after).2 with
        | none => .error (blame .expectedTripleClose)
        | some _ => .ok (.triple body, (dropTilde after).1,
            size front + size body + 3 + size (tilde (dropTilde after).1)) := by
  rw [tripleAt, Text.scanUntil_append isMark_closingBrace]
  cases hcut : Text.cutOutside ['}'] .outside s with
  | none => rfl
  | some found =>
    obtain ⟨body, after⟩ := found
    have hsource : front ++ s = front ++ body ++ ['}'] ++ after := by
      rw [Text.append_of_cutOutside hcut]
      simp
    have hclose : size front + size body + 1 = size (front ++ body ++ ['}']) := by
      rw [size_append, size_append]
      rfl
    have hafter : (if (dropTilde after).1 = true then size front + size body + 2
        else size front + size body + 1) =
          size (front ++ body ++ ['}'] ++ tilde (dropTilde after).1) := by
      rw [size_append, ← hclose, size_tilde]
      split <;> rfl
    have hfrom : from? (front ++ s) (size (front ++ body ++ ['}'] ++ tilde (dropTilde after).1)) =
        some (dropTilde after).2 := by
      have happ := Text.from?_append (front ++ body ++ ['}'] ++ tilde (dropTilde after).1)
        (dropTilde after).2
      rwa [List.append_assoc _ (tilde _), dropTilde_append, ← hsource] at happ
    have hslice : slice? (front ++ s) (size front) (size front + size body) = some body := by
      rw [hsource, List.append_assoc, List.append_assoc]
      exact Text.slice?_append _ _ _
    have hright : ((Text.bytes (front ++ s))[size front + size body + 1]? == some '~'.toUInt8) =
        (dropTilde after).1 := by
      rw [hsource, hclose, tilde_at_append]
    simp only [Option.map_some, hright, hafter, hfrom, hslice, need_some, Except.ok_bind,
      isPrefixOf_eq]
    cases Text.behind? closingBraces (dropTilde after).2 with
    | none => rfl
    | some rest =>
      rw [Option.isSome_some, if_pos rfl, size_append, ← hclose]
      simp only [Except.ok.injEq, Prod.mk.injEq, true_and]
      omega

theorem formAt_of_dashes (s : List Char) :
    formAt blame (front ++ '!' :: '-' :: '-' :: s) (size front) =
      dashedAt blame (front ++ ['!', '-', '-'] ++ s) s := by
  rw [formAt, Text.from?_append, List.append_assoc front]
  rfl

theorem formAt_of_bang {s : List Char} (h : ∀ t, s ≠ '-' :: '-' :: t) :
    formAt blame (front ++ '!' :: s) (size front) =
      commentAt blame (front ++ ['!'] ++ s) (size (front ++ ['!'])) := by
  have hdashes : Text.behind? ['!', '-', '-'] ('!' :: s) = none := by
    rw [Text.behind?_eq_none_iff]
    rintro ⟨t, ht⟩
    exact h t (List.cons.inj ht).2.symm
  rw [formAt, Text.from?_append, need_some, Except.ok_bind, hdashes, List.append_assoc front]
  exact congrArg (commentAt blame _) (size_append front ['!']).symm

theorem formAt_of_brace {s : List Char} (h : ∀ t, s ≠ '{' :: t) :
    formAt blame (front ++ '{' :: s) (size front) =
      tripleAt blame (front ++ ['{'] ++ s) (size (front ++ ['{'])) := by
  have hraw : braces.isPrefixOf ('{' :: s) = false := by
    rw [isPrefixOf_eq, Option.isSome_eq_false_iff, Option.isNone_iff_eq_none,
      Text.behind?_eq_none_iff]
    rintro ⟨t, ht⟩
    exact h t (List.cons.inj ht).2.symm
  rw [formAt, Text.from?_append, need_some, Except.ok_bind, hraw, List.append_assoc front]
  exact congrArg (tripleAt blame _) (size_append front ['{']).symm

theorem formAt_of_plain {s : List Char} (hbang : s.head? ≠ some '!') (hbrace : s.head? ≠ some '{') :
    formAt blame (front ++ s) (size front) = plainAt blame (front ++ s) (size front) := by
  have hraw : braces.isPrefixOf s = false := by
    rw [isPrefixOf_eq, Option.isSome_eq_false_iff, Option.isNone_iff_eq_none,
      Text.behind?_eq_none_iff]
    rintro ⟨t, rfl⟩
    exact hbrace rfl
  have hdashes : Text.behind? ['!', '-', '-'] s = none := by
    rw [Text.behind?_eq_none_iff]
    rintro ⟨t, rfl⟩
    exact hbang rfl
  rw [formAt, Text.from?_append, need_some, Except.ok_bind, hraw, hdashes]
  simp only [Bool.false_eq_true, if_false, if_neg hbang, if_neg hbrace]

def formEnd : Except Fault (Form × Bool × List Char) → Except Stop (Form × Bool × Nat)
  | .error fault => .error (blame fault)
  | .ok (form, right, _) => .ok (form, right, size front + size (formLexeme right form))

theorem size_formLexeme (right : Bool) (form : Form) :
    size (formLexeme right form) = size (tilde right) + match form with
      | .plain body => size body + 2
      | .triple body => size body + 4
      | .comment body => size body + 3
      | .dashed body => size body + 7 := by
  cases form <;> simp [formLexeme, closingBraces, Char.utf8Size] <;> omega

omit front in
theorem head?_ne {s : List Char} {c : Char} (h : ∀ t, s = c :: t → False) :
    s.head? ≠ some c := by
  intro hhead
  obtain ⟨t, rfl⟩ := List.head?_eq_some_iff.mp hhead
  exact h t rfl

theorem formAt_append (s : List Char) :
    formAt blame (front ++ s) (size front) = formEnd front blame (readForm s) := by
  have hend {form : Form} {right : Bool} {m n : Nat} (h : m = n) :
      (Except.ok (form, right, m) : Except Stop _) = .ok (form, right, n) := by rw [h]
  have hbody (body : List Char) :
      size (dropTildeEnd body).1 + size (tilde (dropTildeEnd body).2) = size body := by
    rw [← size_append, dropTildeEnd_append]
  fun_cases readForm s with
  | case1 s => rw [formAt, Text.from?_append]; rfl
  | case2 s hcut => rw [formAt_of_dashes, dashedAt_append, hcut]; rfl
  | case3 s body right rest hcut =>
    rw [formAt_of_dashes, dashedAt_append, hcut]
    refine hend ?_
    have hsign : size ['!', '-', '-'] = 3 := rfl
    rw [size_formLexeme, size_append, size_tilde, hsign]
    cases right <;> simp only [if_true, if_false, Bool.false_eq_true] <;> omega
  | case4 s hdashes hcut => rw [formAt_of_bang _ _ hdashes, commentAt_append, hcut]; rfl
  | case5 s hdashes body rest hcut =>
    rw [formAt_of_bang _ _ hdashes, commentAt_append, hcut]
    refine hend ?_
    have hsign : size ['!'] = 1 := rfl
    rw [size_formLexeme, size_append, hsign, ← hbody body]
    dsimp only
    omega
  | case6 s hbrace hcut => rw [formAt_of_brace _ _ hbrace, tripleAt_append, hcut]; rfl
  | case7 s hbrace body after hcut hclose =>
    rw [formAt_of_brace _ _ hbrace, tripleAt_append, hcut]
    simp only [hclose]
    rfl
  | case8 s hbrace body after hcut rest hclose =>
    rw [formAt_of_brace _ _ hbrace, tripleAt_append, hcut]
    simp only [hclose]
    refine hend ?_
    have hsign : size ['{'] = 1 := rfl
    rw [size_formLexeme, size_append, hsign]
    dsimp only
    omega
  | case9 s hraw hdashes hbang hbrace hcut =>
    rw [formAt_of_plain _ _ (head?_ne hbang) (head?_ne hbrace), plainAt_append, hcut]
    rfl
  | case10 s hraw hdashes hbang hbrace body rest hcut =>
    rw [formAt_of_plain _ _ (head?_ne hbang) (head?_ne hbrace), plainAt_append, hcut]
    refine hend ?_
    rw [size_formLexeme, ← hbody body]
    dsimp only
    omega

end

/-- Reading a tag at its braces gives the tag and ends behind its spelling. -/
theorem readAt_append (before after : List Char) :
    readAt (before ++ (braces ++ after)) (size before) = match read after with
      | .error fault => .error (.fault ⟨Position.start.after before, fault⟩)
      | .ok (t, _) => .ok (t, size before + size t.lexeme) := by
  have hopen : size before + 2 = size (before ++ braces) := (size_append before braces).symm
  have hstart : (if (dropTilde after).1 = true then size before + 3 else size before + 2) =
      size (before ++ braces ++ tilde (dropTilde after).1) := by
    rw [size_append, ← hopen, size_tilde]
    split <;> rfl
  have hsource : before ++ (braces ++ after) =
      before ++ braces ++ tilde (dropTilde after).1 ++ (dropTilde after).2 := by
    rw [List.append_assoc _ (tilde _), dropTilde_append, List.append_assoc]
  have hleft : ((Text.bytes (before ++ (braces ++ after)))[size before + 2]? ==
      some '~'.toUInt8) = (dropTilde after).1 := by
    rw [hopen, ← List.append_assoc, tilde_at_append]
  have hform := formAt_append (before ++ braces ++ tilde (dropTilde after).1)
    (.ofFault (before ++ (braces ++ after)) (size before)) (dropTilde after).2
  rw [← hsource] at hform
  rw [readAt, hleft, hstart, hform, read]
  cases readForm (dropTilde after).2 with
  | error fault => exact congrArg Except.error (Stop.ofFault_append _ _ _)
  | ok found =>
    obtain ⟨form, right, rest⟩ := found
    simp only [formEnd, Except.ok_bind, lexeme, size_append]
    simp only [Nat.add_assoc]

end Tag

namespace Directive

variable (blame : Fault → Stop)

theorem from?_first (first : Char) (rest : List Char) :
    from? (first :: rest) first.utf8Size = some rest := by
  have hsize : first.utf8Size = size [first] := by simp
  rw [hsize]
  exact Text.from?_append [first] rest

/-- The call behind a chained `else` begins at its fifth byte. -/
theorem chain_at (body : List Char) :
    (if isChain body then (need (from? body 4)).map chain
      else (ofMustache body true).mapError blame) =
      Except.mapError blame (match chained? body with
        | some call => .ok (chain call)
        | none => ofMustache body true) := by
  fun_cases chained? body with
  | case1 c rest hc =>
    have hchain : isChain ('e' :: 'l' :: 's' :: 'e' :: c :: rest) = true := hc
    have hfrom : from? ('e' :: 'l' :: 's' :: 'e' :: c :: rest) 4 = some (c :: rest) :=
      Text.from?_append "else".toList (c :: rest)
    rw [if_pos hchain, hfrom]
    rfl
  | case2 c rest hc =>
    have hchain : isChain ('e' :: 'l' :: 's' :: 'e' :: c :: rest) ≠ true := hc
    rw [if_neg hchain]
  | case3 body hbody =>
    have hchain : isChain body = false := by
      rw [isChain]
      split
      · next c rest hbehind =>
        exact absurd (Text.eq_append_of_behind? hbehind) (hbody c rest)
      · rfl
    rw [hchain]
    rfl

theorem ofPlainAt_cons (first : Char) (rest : List Char) :
    ofPlainAt blame (first :: rest) =
      if first = '#' then (ofOpening rest).mapError blame
      else if first = '/' then .ok (closing (String.ofList (Text.trim rest)))
      else if first = '^' then
        if (Text.trim rest).isEmpty then .ok otherwise else .error (blame .inverseSection)
      else if first = '*' then .error (blame .decorator)
      else if first = '>' then (ofEmbed rest).mapError blame
      else if first = '&' then (ofMustache rest false).mapError blame
      else if first :: rest = "else".toList then .ok otherwise
      else Except.mapError blame (match chained? (first :: rest) with
        | some call => .ok (chain call)
        | none => ofMustache (first :: rest) true) := by
  rw [ofPlainAt, from?_first, ← chain_at]
  rfl

theorem ofPlainAt_eq (body : List Char) : ofPlainAt blame body = (ofPlain body).mapError blame := by
  cases body with
  | nil => rfl
  | cons first rest =>
    rw [ofPlainAt_cons]
    -- The signs are told apart one after the other.
    rcases eq_or_ne first '#' with rfl | hhash
    · rfl
    rcases eq_or_ne first '/' with rfl | hslash
    · rfl
    rcases eq_or_ne first '^' with rfl | hcaret
    · rw [ofPlain]
      cases (Text.trim rest).isEmpty <;> rfl
    rcases eq_or_ne first '*' with rfl | hstar
    · rfl
    rcases eq_or_ne first '>' with rfl | harrow
    · rfl
    rcases eq_or_ne first '&' with rfl | hraw
    · rfl
    rw [if_neg hhash, if_neg hslash, if_neg hcaret, if_neg hstar, if_neg harrow, if_neg hraw]
    rw [ofPlain]
    · split <;> rfl
    all_goals simp_all

theorem ofTagAt_eq (tag : Tag) : ofTagAt blame tag = (ofTag tag).mapError blame := by
  obtain ⟨left, form, right⟩ := tag
  cases form with
  | plain body => exact ofPlainAt_eq blame (Text.trim body)
  | triple body => rfl
  | comment body => rfl
  | dashed body => rfl

end Directive
end Stencil.Handlebars
