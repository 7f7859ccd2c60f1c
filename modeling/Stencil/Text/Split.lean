/-!
# Cutting texts

A cut finds the first occurrence of a mark and returns what stands before and
after it. The quote-aware cut passes over marks inside quoted strings, where a
backslash protects the quote that opened the string and nothing else.
-/

namespace Stencil.Text

/-- What follows a mark that stands at the front. -/
def behind? {α : Type} [DecidableEq α] : List α → List α → Option (List α)
  | [], s => some s
  | _ :: _, [] => none
  | m :: mark, c :: s => if m = c then behind? mark s else none

theorem eq_append_of_behind? {α : Type} [DecidableEq α] {mark s after : List α}
    (h : behind? mark s = some after) : s = mark ++ after := by
  induction mark generalizing s with
  | nil => simpa [behind?] using h
  | cons m mark ih =>
    cases s with
    | nil => simp [behind?] at h
    | cons c s =>
      rw [behind?] at h
      split at h
      · next hc => rw [hc, ih h, List.cons_append]
      · cases h

/-- What precedes and what follows the first `mark`. -/
def cut (mark : List Char) : List Char → Option (List Char × List Char)
  | [] => none
  | c :: s =>
    match behind? mark (c :: s) with
    | some after => some ([], after)
    | none => (cut mark s).map fun (before, after) => (c :: before, after)

/-- A cut loses the mark and nothing else. -/
theorem append_of_cut {mark s before after : List Char}
    (h : cut mark s = some (before, after)) : s = before ++ mark ++ after := by
  induction s generalizing before with
  | nil => simp [cut] at h
  | cons c s ih =>
    rw [cut] at h
    split at h
    · next rest hp =>
      simp only [Option.some.injEq, Prod.mk.injEq] at h
      obtain ⟨rfl, rfl⟩ := h
      simpa using eq_append_of_behind? hp
    · next hp =>
      simp only [Option.map_eq_some_iff] at h
      obtain ⟨⟨b, a⟩, hcut, hba⟩ := h
      simp only [Prod.mk.injEq] at hba
      obtain ⟨rfl, rfl⟩ := hba
      simpa using ih hcut

/-- Where a reader stands with respect to quoted strings. -/
inductive Quoting
  | outside
  | inside (quote : Char)
  | backslash (quote : Char)
deriving Repr, DecidableEq

/-- Both quotes open a string; the string ends at the same quote. -/
def isQuote (c : Char) : Bool :=
  c == '"' || c == '\''

def Quoting.next : Quoting → Char → Quoting
  | .outside, c => if isQuote c then .inside c else .outside
  | .inside q, c =>
    if c = '\\' then .backslash q else if c = q then .outside else .inside q
  | .backslash q, c => if c = '\\' then .backslash q else .inside q

/-- The first `mark` that stands outside all quoted strings. -/
def cutOutside (mark : List Char) : Quoting → List Char → Option (List Char × List Char)
  | _, [] => none
  | place, c :: s =>
    match if place = .outside then behind? mark (c :: s) else none with
    | some after => some ([], after)
    | none => (cutOutside mark (place.next c) s).map fun (before, after) => (c :: before, after)

theorem append_of_cutOutside {mark s before after : List Char} {place : Quoting}
    (h : cutOutside mark place s = some (before, after)) : s = before ++ mark ++ after := by
  induction s generalizing place before with
  | nil => simp [cutOutside] at h
  | cons c s ih =>
    rw [cutOutside] at h
    split at h
    · next rest hp =>
      simp only [Option.some.injEq, Prod.mk.injEq] at h
      obtain ⟨rfl, rfl⟩ := h
      split at hp
      · simpa using eq_append_of_behind? hp
      · cases hp
    · simp only [Option.map_eq_some_iff] at h
      obtain ⟨⟨b, a⟩, hcut, hba⟩ := h
      simp only [Prod.mk.injEq] at hba
      obtain ⟨rfl, rfl⟩ := hba
      simpa using ih hcut

/-- The fields between separators; there is always at least one. -/
def fields (separator : Char) : List Char → List (List Char)
  | [] => [[]]
  | c :: s =>
    if c = separator then [] :: fields separator s
    else
      match fields separator s with
      | [] => [[c]]
      | field :: more => (c :: field) :: more

theorem fields_ne_nil (separator : Char) (s : List Char) : fields separator s ≠ [] := by
  cases s with
  | nil => simp [fields]
  | cons c s =>
    rw [fields]
    split
    · simp
    · split <;> simp

def replaceFirst (old new s : List Char) : List Char :=
  match cut old s with
  | some (before, after) => before ++ new ++ after
  | none => s

end Stencil.Text
