import Stencil.Proofs.Placeholder
import Stencil.Proofs.Conversion.Concatenation

/-!
# What pieces are put together from

A piece is written from texts, set apart by characters that are no question
marks, so the placeholder stands in a piece exactly where it stands in one of
its texts. Some of the texts fill slots that Django needs filled: a variable, a
condition, a collection, an argument of a lookup. Where no text stands directly
behind another, the placeholder does not arise between pieces either.
-/

namespace Stencil.Django

namespace Test

/-- The texts that a test compares or asks about. -/
def sides : Test → List String
  | holds condition => [condition]
  | fails condition => [condition]
  | equal left right => [left, right]

theorem resolved_render_iff (test : Test) :
    Resolved test.render.toList ↔ ∀ side ∈ test.sides, Resolved side.toList := by
  cases test with
  | holds condition => simp [render, sides]
  | fails condition => simp [render, sides, Resolved.cons_iff]
  | equal left right => simp [render, sides, Resolved.cons_iff, Resolved.append_cons_iff]

end Test

namespace Piece

def isText : Piece → Bool
  | text _ => true
  | _ => false

def texts : Piece → List String
  | text content => [content]
  | comment content => [content]
  | output value _ => [value]
  | icon arguments attributes =>
    arguments ++ attributes.flatMap fun (key, value) => [key, value]
  | inclusion name bindings => name :: bindings.flatMap fun (key, value) => [key, value]
  | ifOpen test => test.sides
  | elifOpen condition => [condition]
  | forValues value collection => [value, collection]
  | forEntries key value collection => [key, value, collection]
  | withOpen name collection key => [name, collection, key]
  | keptOpen helper => [helper]
  | keptClose helper => [helper]
  | _ => []

/-- The texts among them without which the piece asks for nothing: the variable that is shown,
the condition or its sides, the collection of a loop, the arguments of a lookup. -/
def slots : Piece → List String
  | output value _ => [value]
  | ifOpen test => test.sides
  | elifOpen condition => [condition]
  | forValues _ collection => [collection]
  | forEntries _ _ collection => [collection]
  | withOpen _ collection key => [collection, key]
  | _ => []

/-- Words behind spaces, between other texts. -/
theorem resolved_words_iff (before : List Char) (words : List String) (after : List Char) :
    Resolved (before ++ (concat (words.map (" " ++ ·))).toList ++ ' ' :: after) ↔
      Resolved before ∧ (∀ word ∈ words, Resolved word.toList) ∧ Resolved after := by
  induction words generalizing before with
  | nil => simp [concat, Resolved.append_cons_iff]
  | cons word words ih =>
    have hlist : before ++ (concat ((word :: words).map (" " ++ ·))).toList ++ ' ' :: after =
        before ++ ' ' :: (word.toList ++ (concat (words.map (" " ++ ·))).toList ++
          ' ' :: after) := by
      simp [concat]
    rw [hlist, Resolved.append_cons_iff (by decide), ih word.toList, List.forall_mem_cons,
      and_assoc]

theorem render_icon (arguments : List String) (attributes : List (String × String)) :
    (icon arguments attributes).render =
      blockTag ("carbon_icon" ++ concat ((arguments ++
        attributes.map fun (key, value) => key ++ "=\"" ++ value ++ "\"").map (" " ++ ·))) := by
  rw [render, List.map_append, concat_append, List.map_map]
  simp [String.append_assoc, Function.comp_def]

theorem forall_mem_pairs {P : String → Prop} {pairs : List (String × String)} :
    (∀ text ∈ pairs.flatMap (fun (key, value) => [key, value]), P text) ↔
      ∀ pair ∈ pairs, P pair.1 ∧ P pair.2 := by
  induction pairs with
  | nil => simp
  | cons pair pairs ih =>
    rw [List.flatMap_cons, List.forall_mem_append, List.forall_mem_cons (l := pairs), ih]
    simp

theorem resolved_blockTag_iff (inner : String) :
    Resolved (blockTag inner).toList ↔ Resolved inner.toList := by
  simp [blockTag, Resolved.cons_iff, Resolved.append_cons_iff]

theorem resolved_binding_iff (pair : String × String) :
    Resolved (binding pair).toList ↔ Resolved pair.1.toList ∧ Resolved pair.2.toList := by
  simp [binding, Resolved.append_cons_iff]

theorem resolved_icon_iff (arguments : List String) (attributes : List (String × String)) :
    Resolved (icon arguments attributes).render.toList ↔
      (∀ argument ∈ arguments, Resolved argument.toList) ∧
        ∀ pair ∈ attributes, Resolved pair.1.toList ∧ Resolved pair.2.toList := by
  have hattribute (pair : String × String) :
      Resolved (pair.1 ++ "=\"" ++ pair.2 ++ "\"").toList ↔
        Resolved pair.1.toList ∧ Resolved pair.2.toList := by
    simp [Resolved.cons_iff, Resolved.append_cons_iff]
  have hlist : (icon arguments attributes).render.toList =
      "\x7b% carbon_icon".toList ++ (concat ((arguments ++ attributes.map fun (key, value) =>
        key ++ "=\"" ++ value ++ "\"").map (" " ++ ·))).toList ++ ' ' :: "%\x7d".toList := by
    rw [render_icon, blockTag]
    simp
  rw [hlist, resolved_words_iff]
  simp only [List.forall_mem_append, List.forall_mem_map, hattribute]
  simp [Resolved.cons_iff]

theorem resolved_inclusion_iff (name : String) (bindings : List (String × String)) :
    Resolved (inclusion name bindings).render.toList ↔
      Resolved name.toList ∧
        ∀ pair ∈ bindings, Resolved pair.1.toList ∧ Resolved pair.2.toList := by
  have hbindings : Resolved (" ".intercalate (bindings.map binding)).toList ↔
      ∀ pair ∈ bindings, Resolved pair.1.toList ∧ Resolved pair.2.toList := by
    refine (Resolved.intercalate_iff ' ' (by decide)).trans ?_
    simp only [List.forall_mem_map, resolved_binding_iff]
  rw [render, resolved_blockTag_iff]
  cases bindings with
  | nil => simp [Resolved.cons_iff]
  | cons pair bindings =>
    rw [← hbindings]
    simp [Resolved.cons_iff, Resolved.append_cons_iff]

/-- The placeholder stands in a piece exactly where it stands in one of its texts. -/
theorem resolved_render_iff (piece : Piece) :
    Resolved piece.render.toList ↔ ∀ text ∈ piece.texts, Resolved text.toList := by
  cases piece with
  | text content => simp [render, texts]
  | comment content => simp [render, texts, Resolved.cons_iff, Resolved.append_cons_iff]
  | output value safe =>
    cases safe <;> simp [render, texts, Resolved.cons_iff, Resolved.append_cons_iff]
  | icon arguments attributes =>
    rw [resolved_icon_iff, texts, List.forall_mem_append, forall_mem_pairs]
  | inclusion name bindings =>
    rw [resolved_inclusion_iff, texts, List.forall_mem_cons, forall_mem_pairs]
  | ifOpen test =>
    rw [render, resolved_blockTag_iff, texts, ← test.resolved_render_iff]
    simp [Resolved.cons_iff]
  | elifOpen condition => simp [render, texts, resolved_blockTag_iff, Resolved.cons_iff]
  | elseMark => simp [render, texts, blockTag, Resolved.cons_iff]
  | endIf => simp [render, texts, blockTag, Resolved.cons_iff]
  | forValues value collection =>
    simp [render, texts, resolved_blockTag_iff, Resolved.cons_iff, Resolved.append_cons_iff]
  | forEntries key value collection =>
    simp [render, texts, resolved_blockTag_iff, Resolved.cons_iff, Resolved.append_cons_iff]
  | emptyMark => simp [render, texts, blockTag, Resolved.cons_iff]
  | endFor => simp [render, texts, blockTag, Resolved.cons_iff]
  | withOpen name collection key =>
    simp [render, texts, resolved_blockTag_iff, Resolved.cons_iff, Resolved.append_cons_iff]
  | endWith => simp [render, texts, blockTag, Resolved.cons_iff]
  | keptOpen helper => simp [render, texts, Resolved.cons_iff, Resolved.append_cons_iff]
  | keptElse => simp [render, texts, Resolved.cons_iff]
  | keptClose helper => simp [render, texts, Resolved.cons_iff, Resolved.append_cons_iff]

/-- The piece holds no placeholder and has a text in every slot. -/
structure Complete (piece : Piece) : Prop where
  resolved : Resolved piece.render.toList
  filled : "" ∉ piece.slots

theorem complete_iff (piece : Piece) :
    piece.Complete ↔ (∀ text ∈ piece.texts, Resolved text.toList) ∧ "" ∉ piece.slots := by
  rw [← resolved_render_iff]
  exact ⟨fun h => ⟨h.resolved, h.filled⟩, fun h => ⟨h.1, h.2⟩⟩

theorem forall_named_iff {texts : List String} :
    (∀ text ∈ texts, Named text) ↔ (∀ text ∈ texts, Resolved text.toList) ∧ "" ∉ texts := by
  constructor
  · intro h
    exact ⟨fun text htext => (h text htext).resolved, fun hempty => (h "" hempty).ne_empty rfl⟩
  · rintro ⟨hresolved, hempty⟩ text htext
    exact ⟨fun h => hempty (h ▸ htext), hresolved text htext⟩

theorem complete_output {value : String} {safe : Bool} :
    (output value safe).Complete ↔ Named value := by
  rw [complete_iff, texts, slots, ← forall_named_iff, List.forall_mem_singleton]

theorem complete_ifOpen {test : Test} :
    (ifOpen test).Complete ↔ ∀ side ∈ test.sides, Named side := by
  rw [complete_iff, texts, slots, ← forall_named_iff]

theorem complete_elifOpen {condition : String} :
    (elifOpen condition).Complete ↔ Named condition := by
  rw [complete_iff, texts, slots, ← forall_named_iff, List.forall_mem_singleton]

theorem complete_withOpen {name collection key : String} :
    (withOpen name collection key).Complete ↔
      Resolved name.toList ∧ Named collection ∧ Named key := by
  rw [complete_iff, texts, List.forall_mem_cons, and_assoc, slots, ← forall_named_iff,
    List.forall_mem_cons, List.forall_mem_singleton]

theorem complete_forValues {value collection : String} :
    (forValues value collection).Complete ↔ Resolved value.toList ∧ Named collection := by
  rw [complete_iff, texts, List.forall_mem_cons, and_assoc, slots, ← forall_named_iff,
    List.forall_mem_singleton]

theorem complete_forEntries {key value collection : String} :
    (forEntries key value collection).Complete ↔
      Resolved key.toList ∧ Resolved value.toList ∧ Named collection := by
  rw [complete_iff, texts, List.forall_mem_cons, List.forall_mem_cons, and_assoc, and_assoc,
    slots, ← forall_named_iff, List.forall_mem_singleton]

/-- A tag without texts lacks nothing. -/
theorem complete_of_texts_eq_nil {piece : Piece} (htexts : piece.texts = [])
    (hslots : piece.slots = []) : piece.Complete := by
  rw [complete_iff, htexts, hslots]
  simp

/-- A tag stands in braces. -/
theorem exists_render_eq {piece : Piece} (h : piece.isText = false) :
    ∃ inner, piece.render.toList = '{' :: inner ++ ['}'] := by
  have hblock (inner : String) :
      ∃ middle, (blockTag inner).toList = '{' :: middle ++ ['}'] :=
    ⟨'%' :: ' ' :: inner.toList ++ [' ', '%'], by simp [blockTag]⟩
  cases piece with
  | text content => cases h
  | comment content => exact ⟨'#' :: content.toList ++ ['#'], by simp [render]⟩
  | output value safe =>
    exact ⟨'{' :: ' ' :: value.toList ++ (if safe then "|safe" else "").toList ++ [' ', '}'],
      by simp [render]⟩
  | keptOpen helper =>
    exact ⟨'{' :: '#' :: ' ' :: helper.toList ++ [' ', '}'], by simp [render]⟩
  | keptElse => exact ⟨"\x7belse\x7d".toList, by simp [render]⟩
  | keptClose helper => exact ⟨'{' :: '/' :: helper.toList ++ ['}'], by simp [render]⟩
  | _ => exact hblock _

end Piece

/-- No text stands directly behind another. -/
def Spaced : List Piece → Prop
  | p :: q :: pieces => (p.isText = true → q.isText = false) ∧ Spaced (q :: pieces)
  | _ => True

theorem spaced_cons {piece : Piece} {pieces : List Piece} (hpiece : piece.isText = false)
    (h : Spaced pieces) : Spaced (piece :: pieces) := by
  cases pieces with
  | nil => trivial
  | cons q pieces => exact ⟨by simp [hpiece], h⟩

theorem spaced_append {first second : List Piece} (hfirst : Spaced first) (hsecond : Spaced second)
    (h : (∀ p ∈ first.getLast?, p.isText = false) ∨ ∀ q ∈ second.head?, q.isText = false) :
    Spaced (first ++ second) := by
  induction first with
  | nil => exact hsecond
  | cons p first ih =>
    cases first with
    | cons q first => exact ⟨hfirst.1, ih hfirst.2 (by simpa using h)⟩
    | nil =>
      cases second with
      | nil => trivial
      | cons q second =>
        refine ⟨fun hp => ?_, hsecond⟩
        rcases h with h | h
        · rw [h p rfl] at hp
          cases hp
        · exact h q rfl

/-- The placeholder does not arise between pieces. -/
theorem resolved_render_iff {pieces : List Piece} (h : Spaced pieces) :
    Resolved (Fragment.render pieces).toList ↔ ∀ piece ∈ pieces, Resolved piece.render.toList := by
  induction pieces with
  | nil => simp [Fragment.render, concat]
  | cons p pieces ih =>
    have hrender : (Fragment.render (p :: pieces)).toList =
        p.render.toList ++ (Fragment.render pieces).toList := by
      simp [Fragment.render, concat]
    rw [hrender, List.forall_mem_cons]
    cases pieces with
    | nil => simp [Fragment.render, concat]
    | cons q pieces =>
      rw [← ih h.2]
      cases hp : p.isText with
      | false =>
        obtain ⟨inner, hinner⟩ := Piece.exists_render_eq hp
        rw [hinner, Resolved.concat_iff (by decide), List.append_assoc, List.singleton_append,
          Resolved.append_cons_iff (by decide)]
      | true =>
        obtain ⟨inner, hinner⟩ := Piece.exists_render_eq (h.1 hp)
        have hrest : (Fragment.render (q :: pieces)).toList =
            '{' :: (inner ++ '}' :: (Fragment.render pieces).toList) := by
          simp [Fragment.render, concat, hinner]
        rw [hrest, Resolved.append_cons_iff (by decide), Resolved.cons_iff (by decide)]

end Stencil.Django
