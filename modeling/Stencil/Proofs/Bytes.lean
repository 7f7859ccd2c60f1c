import Mathlib.Logic.Basic
import Stencil.Text.Bytes
import Stencil.Proofs.Text

/-!
# Bytes and characters

Byte offsets that are sums of sizes lie between characters, so cutting there
gives the expected texts. The marks of a template are of single bytes, and no
byte of a longer encoding is one of these; looking for a mark byte by byte
therefore finds the same places as looking for it character by character.
-/

namespace Stencil.Text

@[simp] theorem bytes_nil : bytes [] = [] := rfl

theorem bytes_cons (c : Char) (s : List Char) :
    bytes (c :: s) = String.utf8EncodeChar c ++ bytes s := rfl

@[simp] theorem bytes_append (s t : List Char) : bytes (s ++ t) = bytes s ++ bytes t := by
  simp [bytes]

@[simp] theorem size_nil : size [] = 0 := rfl

@[simp] theorem size_cons (c : Char) (s : List Char) : size (c :: s) = c.utf8Size + size s := by
  simp [size, bytes_cons]

@[simp] theorem size_append (s t : List Char) : size (s ++ t) = size s + size t := by
  simp [size]

theorem size_pos {s : List Char} (h : s ≠ []) : 0 < size s := by
  obtain ⟨c, s, rfl⟩ := List.exists_cons_of_ne_nil h
  rw [size_cons]
  exact Nat.add_pos_left c.utf8Size_pos _

theorem split?_append (before after : List Char) :
    split? (size before) (before ++ after) = some (before, after) := by
  induction before with
  | nil => rw [size_nil, split?]; rfl
  | cons c before ih =>
    obtain ⟨n, hn⟩ := Nat.exists_eq_add_one.mpr c.utf8Size_pos
    have hsize : size (c :: before) = n + size before + 1 := by rw [size_cons]; omega
    have hrest : n + size before + 1 - c.utf8Size = size before := by omega
    rw [hsize, List.cons_append, split?, if_pos (by omega), hrest, ih]
    rfl

theorem from?_append (before after : List Char) :
    from? (before ++ after) (size before) = some after := by
  rw [from?, split?_append]
  rfl

theorem upTo?_append (before after : List Char) :
    upTo? (before ++ after) (size before) = some before := by
  rw [upTo?, split?_append]
  rfl

theorem slice?_append (before part after : List Char) :
    slice? (before ++ (part ++ after)) (size before) (size before + size part) = some part := by
  rw [slice?, if_pos (Nat.le_add_right _ _), from?_append, Nat.add_sub_cancel_left]
  exact upTo?_append part after

theorem takeBytes_append (before after : List Char) :
    takeBytes (size before) (before ++ after) = some before := by
  induction before with
  | nil => rw [size_nil, takeBytes]
  | cons c before ih =>
    obtain ⟨n, hn⟩ := Nat.exists_eq_add_one.mpr c.utf8Size_pos
    have hsize : size (c :: before) = n + size before + 1 := by rw [size_cons]; omega
    have hrest : n + size before + 1 - c.utf8Size = size before := by omega
    rw [hsize, List.cons_append, takeBytes, if_pos (by omega), hrest, ih]
    rfl

theorem Position.ofOffset_append (before after : List Char) :
    Position.ofOffset (before ++ after) (size before) = some (Position.start.after before) := by
  rw [Position.ofOffset, takeBytes_append]
  rfl

theorem getElem?_bytes_append (before after : List Char) :
    (bytes (before ++ after))[size before]? = (bytes after).head? := by
  rw [bytes_append, size, List.getElem?_append_right (Nat.le_refl _), Nat.sub_self,
    List.head?_eq_getElem?]

theorem getElem?_bytes_last (before after : List Char) {part : List Char} (h : part ≠ []) :
    (bytes (before ++ (part ++ after)))[size before + size part - 1]? = (bytes part).getLast? := by
  have hpos : 0 < (bytes part).length := size_pos h
  rw [List.getLast?_eq_getElem?, bytes_append, bytes_append]
  have hindex :
      size before + size part - 1 = (bytes before).length + ((bytes part).length - 1) := by
    change (bytes before).length + (bytes part).length - 1 = _
    omega
  rw [hindex, List.getElem?_append_right (Nat.le_add_right _ _), Nat.add_sub_cancel_left,
    List.getElem?_append_left (by omega)]

theorem find?_eq (mark s : List Char) :
    find? mark s = (cut mark s).map fun (before, _) => size before := rfl

theorem find?_cons (mark s : List Char) (c : Char) :
    find? mark (c :: s) =
      if (behind? mark (c :: s)).isSome then some 0 else (find? mark s).map (c.utf8Size + ·) := by
  rw [find?_eq, cut, find?_eq]
  cases behind? mark (c :: s) with
  | some after => rfl
  | none => simp [Function.comp_def]

theorem drop_bytes_append (before after : List Char) :
    (bytes (before ++ after)).drop (size before) = bytes after := by
  rw [bytes_append, size, List.drop_left]

/-- Whether a character is encoded as a single byte, which no other encoding contains. -/
def isNarrow (c : Char) : Bool :=
  c.utf8Size == 1

theorem utf8EncodeChar_of_narrow {c : Char} (h : isNarrow c = true) :
    String.utf8EncodeChar c = [c.toUInt8] :=
  String.utf8EncodeChar_eq_singleton (beq_iff_eq.mp h)

theorem bytes_cons_of_narrow {c : Char} (h : isNarrow c = true) (s : List Char) :
    bytes (c :: s) = c.toUInt8 :: bytes s := by
  rw [bytes_cons, utf8EncodeChar_of_narrow h]
  rfl

theorem val_le_of_narrow {c : Char} (h : isNarrow c = true) : c.val.toNat ≤ 127 :=
  UInt32.le_iff_toNat_le.mp (Char.utf8Size_eq_one_iff.mp (beq_iff_eq.mp h))

theorem toNat_toUInt8_of_narrow {c : Char} (h : isNarrow c = true) :
    c.toUInt8.toNat = c.val.toNat := by
  have hval := val_le_of_narrow h
  change c.val.toUInt8.toNat = c.val.toNat
  rw [UInt32.toNat_toUInt8]
  exact Nat.mod_eq_of_lt (by omega)

theorem toUInt8_inj_of_narrow {c d : Char} (hc : isNarrow c = true) (hd : isNarrow d = true) :
    c.toUInt8 = d.toUInt8 ↔ c = d := by
  refine ⟨fun h => ?_, congrArg _⟩
  have hnat := congrArg UInt8.toNat h
  rw [toNat_toUInt8_of_narrow hc, toNat_toUInt8_of_narrow hd] at hnat
  exact Char.ext (UInt32.toNat_inj.mp hnat)

/-- The bytes of a longer encoding are set apart by their highest bit. -/
theorem le_of_mem_utf8EncodeChar {c : Char} (h : isNarrow c = false) {b : UInt8}
    (hb : b ∈ String.utf8EncodeChar c) : 128 ≤ b.toNat := by
  have hval : ¬ c.val.toNat ≤ 127 := by
    intro hle
    have hone := Char.utf8Size_eq_one_iff.mpr (UInt32.le_iff_toNat_le.mpr hle)
    simp [isNarrow, hone] at h
  unfold String.utf8EncodeChar at hb
  simp only [if_neg hval] at hb
  split at hb
  · simp only [List.mem_cons, List.not_mem_nil, or_false] at hb
    rcases hb with rfl | rfl <;> simp only [UInt8.toNat_ofNat'] <;> omega
  · split at hb
    · simp only [List.mem_cons, List.not_mem_nil, or_false] at hb
      rcases hb with rfl | rfl | rfl <;> simp only [UInt8.toNat_ofNat'] <;> omega
    · simp only [List.mem_cons, List.not_mem_nil, or_false] at hb
      rcases hb with rfl | rfl | rfl | rfl <;> simp only [UInt8.toNat_ofNat'] <;> omega

theorem ne_toUInt8_of_wide {c d : Char} (hc : isNarrow c = false) (hd : isNarrow d = true)
    {b : UInt8} (hb : b ∈ String.utf8EncodeChar c) : b ≠ d.toUInt8 := by
  rintro rfl
  have hlow := val_le_of_narrow hd
  have hhigh := le_of_mem_utf8EncodeChar hc hb
  rw [toNat_toUInt8_of_narrow hd] at hhigh
  omega

section
variable {c d : Char} (hd : isNarrow d = true)
include hd

theorem ne_of_wide (hc : isNarrow c = false) : d ≠ c := by
  rintro rfl
  simp [hd] at hc

theorem head?_bytes_eq_iff (s : List Char) :
    (bytes s).head? = some d.toUInt8 ↔ s.head? = some d := by
  cases s with
  | nil => simp
  | cons c s =>
    rw [List.head?_cons, Option.some.injEq]
    cases hc : isNarrow c with
    | true => rw [bytes_cons_of_narrow hc, List.head?_cons, Option.some.injEq,
        toUInt8_inj_of_narrow hc hd]
    | false =>
      refine ⟨fun h => ?_, fun h => absurd h.symm (ne_of_wide hd hc)⟩
      obtain ⟨b, more, hb⟩ := List.exists_cons_of_ne_nil (@String.utf8EncodeChar_ne_nil c)
      rw [bytes_cons, hb] at h
      obtain rfl := Option.some.inj h
      exact absurd rfl (ne_toUInt8_of_wide hc hd (hb ▸ List.mem_cons_self))

theorem getLast?_bytes_eq_iff (s : List Char) :
    (bytes s).getLast? = some d.toUInt8 ↔ s.getLast? = some d := by
  rcases List.eq_nil_or_concat s with rfl | ⟨front, c, rfl⟩
  · simp
  · rw [List.concat_eq_append, List.getLast?_concat, bytes_append, Option.some.injEq]
    cases hc : isNarrow c with
    | true =>
      rw [bytes_cons_of_narrow hc, bytes_nil, List.getLast?_concat, Option.some.injEq,
        toUInt8_inj_of_narrow hc hd]
    | false =>
      refine ⟨fun h => ?_, fun h => absurd h.symm (ne_of_wide hd hc)⟩
      have hlast := List.getLast?_eq_some_getLast (@String.utf8EncodeChar_ne_nil c)
      rw [bytes_cons, bytes_nil, List.append_nil, List.getLast?_append, hlast, Option.some_or] at h
      exact absurd (Option.some.inj h) (ne_toUInt8_of_wide hc hd (List.getLast_mem _))

end

/-- Marks are of single bytes and do not contain quotes. -/
structure IsMark (mark : List Char) : Prop where
  ne_nil : mark ≠ []
  narrow : ∀ c ∈ mark, isNarrow c = true
  plain : ∀ c ∈ mark, isQuote c = false

theorem IsMark.of_all {mark : List Char} (hne : mark ≠ [])
    (hall : (mark.all fun c => isNarrow c && !isQuote c) = true) : IsMark mark := by
  simp only [List.all_eq_true, Bool.and_eq_true, Bool.not_eq_true'] at hall
  exact ⟨hne, fun c hc => (hall c hc).1, fun c hc => (hall c hc).2⟩

theorem isPrefixOf_bytes {mark : List Char} (h : ∀ c ∈ mark, isNarrow c = true) (s : List Char) :
    (bytes mark).isPrefixOf (bytes s) = (behind? mark s).isSome := by
  induction mark generalizing s with
  | nil => rfl
  | cons m mark ih =>
    rw [List.forall_mem_cons] at h
    rw [bytes_cons_of_narrow h.1]
    cases s with
    | nil => rfl
    | cons c s =>
      cases hc : isNarrow c with
      | true =>
        rw [bytes_cons_of_narrow hc, List.isPrefixOf, ih h.2, behind?]
        by_cases hmc : m = c
        · simp [hmc]
        · have hbyte := (toUInt8_inj_of_narrow h.1 hc).not.mpr hmc
          simp [hmc, hbyte]
      | false =>
        obtain ⟨b, more, hb⟩ := List.exists_cons_of_ne_nil (@String.utf8EncodeChar_ne_nil c)
        have hne := ne_toUInt8_of_wide hc h.1 (hb ▸ List.mem_cons_self)
        rw [bytes_cons, hb, behind?, if_neg (ne_of_wide h.1 hc)]
        simp [List.isPrefixOf, hne.symm]

theorem isNarrow_of_isQuote {c : Char} (h : isQuote c = true) : isNarrow c = true := by
  simp only [isQuote, Bool.or_eq_true, beq_iff_eq] at h
  rcases h with rfl | rfl <;> decide

theorem isQuote_iff_toUInt8 {c : Char} (h : isNarrow c = true) :
    isQuote c = true ↔ c.toUInt8 = '"'.toUInt8 ∨ c.toUInt8 = '\''.toUInt8 := by
  rw [toUInt8_inj_of_narrow h (by decide), toUInt8_inj_of_narrow h (by decide)]
  simp [isQuote]

theorem scanBytes_cons_inside (mark : List UInt8) (q : UInt8) (i : Nat) (b : UInt8)
    (rest : List UInt8) :
    scanBytes mark (some q) i (b :: rest) =
      if b = '\\'.toUInt8 ∧ rest.head? = some q then scanBytes mark (some q) (i + 2) rest.tail
      else scanBytes mark (if b = q then none else some q) (i + 1) rest := by
  cases rest with
  | nil => simp [scanBytes]
  | cons next more => simp [scanBytes]

/-- The offset of the first `mark` outside of strings. -/
def offsetOutside? (mark : List Char) (place : Quoting) (s : List Char) : Option Nat :=
  (cutOutside mark place s).map fun (before, _) => size before

theorem offsetOutside?_cons_mark {mark s after : List Char} {c : Char}
    (h : behind? mark (c :: s) = some after) : offsetOutside? mark .outside (c :: s) = some 0 := by
  rw [offsetOutside?, cutOutside, if_pos rfl, h]
  rfl

theorem offsetOutside?_cons_outside {mark s : List Char} {c : Char}
    (h : behind? mark (c :: s) = none) :
    offsetOutside? mark .outside (c :: s) =
      (offsetOutside? mark (Quoting.outside.next c) s).map (c.utf8Size + ·) := by
  rw [offsetOutside?, cutOutside, if_pos rfl, h, offsetOutside?, Option.map_map, Option.map_map]
  simp [Function.comp_def]

theorem offsetOutside?_cons (mark s : List Char) (c : Char) (place : Quoting)
    (h : place ≠ .outside) :
    offsetOutside? mark place (c :: s) =
      (offsetOutside? mark (place.next c) s).map (c.utf8Size + ·) := by
  rw [offsetOutside?, cutOutside, if_neg h, offsetOutside?, Option.map_map, Option.map_map]
  simp [Function.comp_def]

theorem map_add_map_add (found : Option Nat) (i j : Nat) :
    (found.map (j + ·)).map (i + ·) = found.map (i + j + ·) := by
  rw [Option.map_map]
  congr 1
  funext n
  exact (Nat.add_assoc i j n).symm

section
variable {mark : List Char} (hmark : IsMark mark)
include hmark

theorem behind?_wide {c : Char} (hc : isNarrow c = false) (s : List Char) :
    behind? mark (c :: s) = none := by
  obtain ⟨m, mark, rfl⟩ := List.exists_cons_of_ne_nil hmark.ne_nil
  rw [behind?, if_neg (ne_of_wide (hmark.narrow m List.mem_cons_self) hc)]

/-- A character of several bytes changes nothing. -/
theorem scanBytes_wide {c : Char} (hc : isNarrow c = false) {place : Option UInt8}
    (hplace : ∀ q ∈ place, ∃ d, isNarrow d = true ∧ q = d.toUInt8) (i : Nat) (rest : List UInt8) :
    scanBytes (bytes mark) place i (String.utf8EncodeChar c ++ rest) =
      scanBytes (bytes mark) place (i + c.utf8Size) rest := by
  rw [← String.length_utf8EncodeChar]
  have hwide : ∀ b ∈ String.utf8EncodeChar c, ∀ d, isNarrow d = true → b ≠ d.toUInt8 :=
    fun b hb d hd => ne_toUInt8_of_wide hc hd hb
  generalize String.utf8EncodeChar c = front at hwide
  induction front generalizing i with
  | nil => rfl
  | cons b front ih =>
    rw [List.forall_mem_cons] at hwide
    rw [List.cons_append, List.length_cons, Nat.add_comm front.length 1, ← Nat.add_assoc,
      ← ih (i + 1) hwide.2]
    cases place with
    | none =>
      have hquote : ¬ (b = '"'.toUInt8 ∨ b = '\''.toUInt8) := by
        rintro (h | h)
        · exact hwide.1 _ (by decide) h
        · exact hwide.1 _ (by decide) h
      have hfirst : (bytes mark).isPrefixOf (b :: (front ++ rest)) = false := by
        obtain ⟨m, mark, rfl⟩ := List.exists_cons_of_ne_nil hmark.ne_nil
        have hm := hmark.narrow m List.mem_cons_self
        rw [bytes_cons_of_narrow hm]
        simp [List.isPrefixOf, (hwide.1 m hm).symm]
      rw [scanBytes, if_neg hquote, if_neg (by simp [hfirst])]
    | some q =>
      obtain ⟨d, hd, rfl⟩ := hplace q rfl
      have hslash := hwide.1 '\\' (by decide)
      rw [scanBytes_cons_inside, if_neg (fun h => hslash h.1), if_neg (hwide.1 d hd)]

/-- A mark in front of a text that does not begin with a quote. -/
theorem not_quote_of_behind? {c : Char} {s after : List Char}
    (h : behind? mark (c :: s) = some after) : isQuote c = false := by
  obtain ⟨m, more, rfl⟩ := List.exists_cons_of_ne_nil hmark.ne_nil
  rw [behind?] at h
  split at h
  · next hmc => exact hmc ▸ hmark.plain m List.mem_cons_self
  · cases h

theorem scanBytes_narrow {c : Char} (hc : isNarrow c = true) (hquote : isQuote c = false)
    (s : List Char) (i : Nat) :
    scanBytes (bytes mark) none i (bytes (c :: s)) =
      if (behind? mark (c :: s)).isSome then some i
      else scanBytes (bytes mark) none (i + 1) (bytes s) := by
  have hbyte : ¬ (c.toUInt8 = '"'.toUInt8 ∨ c.toUInt8 = '\''.toUInt8) := by
    rw [← isQuote_iff_toUInt8 hc, hquote]
    exact Bool.false_ne_true
  rw [← isPrefixOf_bytes hmark.narrow, bytes_cons_of_narrow hc, scanBytes, if_neg hbyte]

omit hmark in
theorem scanBytes_quote {c : Char} (hquote : isQuote c = true) (s : List Char) (i : Nat) :
    scanBytes (bytes mark) none i (bytes (c :: s)) =
      scanBytes (bytes mark) (some c.toUInt8) (i + 1) (bytes s) := by
  have hc := isNarrow_of_isQuote hquote
  rw [bytes_cons_of_narrow hc, scanBytes, if_pos ((isQuote_iff_toUInt8 hc).mp hquote)]

omit hmark in
theorem scanBytes_inside {c q : Char} (hc : isNarrow c = true) (hq : isQuote q = true)
    (hslash : c ≠ '\\') (s : List Char) (i : Nat) :
    scanBytes (bytes mark) (some q.toUInt8) i (bytes (c :: s)) =
      scanBytes (bytes mark) (if c = q then none else some q.toUInt8) (i + 1) (bytes s) := by
  have hbyte : c.toUInt8 ≠ '\\'.toUInt8 := (toUInt8_inj_of_narrow hc (by decide)).not.mpr hslash
  rw [bytes_cons_of_narrow hc, scanBytes_cons_inside, if_neg fun h => hbyte h.1]
  simp only [toUInt8_inj_of_narrow hc (isNarrow_of_isQuote hq)]

omit hmark in
/-- A backslash protects the quote behind it and nothing else. -/
theorem scanBytes_backslash {q : Char} (hq : isQuote q = true) (s : List Char) (i : Nat) :
    scanBytes (bytes mark) (some q.toUInt8) i ('\\'.toUInt8 :: bytes s) =
      if s.head? = some q then scanBytes (bytes mark) (some q.toUInt8) (i + 2) (bytes s.tail)
      else scanBytes (bytes mark) (some q.toUInt8) (i + 1) (bytes s) := by
  have hnq := isNarrow_of_isQuote hq
  have hslash : '\\'.toUInt8 ≠ q.toUInt8 := by
    rw [ne_eq, toUInt8_inj_of_narrow (by decide) hnq]
    rintro rfl
    cases hq
  rw [scanBytes_cons_inside, if_neg hslash]
  simp only [true_and, head?_bytes_eq_iff hnq]
  split
  · next hhead =>
    obtain ⟨s, rfl⟩ : ∃ t, s = q :: t := by
      cases s with
      | nil => cases hhead
      | cons c s => exact ⟨s, congrArg (· :: s) (Option.some.inj hhead)⟩
    rw [bytes_cons_of_narrow hnq]
    rfl
  · rfl

/-- Looking through the bytes finds the mark where the characters have it. Inside of a string, a
backslash that has been read may still stand in front of the rest. -/
structure ScannedAlike (mark s : List Char) : Prop where
  outside : ∀ i, scanBytes (bytes mark) none i (bytes s) =
    (offsetOutside? mark .outside s).map (i + ·)
  inside : ∀ q, isQuote q = true → ∀ i, scanBytes (bytes mark) (some q.toUInt8) i (bytes s) =
    (offsetOutside? mark (.inside q) s).map (i + ·)
  backslash : ∀ q, isQuote q = true → ∀ i,
    scanBytes (bytes mark) (some q.toUInt8) i ('\\'.toUInt8 :: bytes s) =
      (offsetOutside? mark (.backslash q) s).map (i + 1 + ·)

namespace ScannedAlike

variable {s : List Char} (h : ScannedAlike mark s) (c : Char) (i : Nat)
include h

theorem outside_cons : scanBytes (bytes mark) none i (bytes (c :: s)) =
    (offsetOutside? mark .outside (c :: s)).map (i + ·) := by
  cases hquote : isQuote c with
  | true =>
    have hone : c.utf8Size = 1 := beq_iff_eq.mp (isNarrow_of_isQuote hquote)
    have hmiss : behind? mark (c :: s) = none := by
      cases hbehind : behind? mark (c :: s) with
      | none => rfl
      | some after => simp [not_quote_of_behind? hmark hbehind] at hquote
    rw [scanBytes_quote hquote, h.inside c hquote, offsetOutside?_cons_outside hmiss,
      map_add_map_add, Quoting.next, if_pos hquote, hone]
  | false =>
    cases hmiss : behind? mark (c :: s) with
    | none =>
      rw [offsetOutside?_cons_outside hmiss, map_add_map_add, Quoting.next,
        if_neg (Bool.not_eq_true _ ▸ hquote)]
      cases hc : isNarrow c with
      | false => rw [bytes_cons, scanBytes_wide hmark hc (by simp), h.outside]
      | true =>
        rw [scanBytes_narrow hmark hc hquote, hmiss, if_neg (by simp), h.outside,
          beq_iff_eq.mp hc]
    | some after =>
      have hc : isNarrow c = true := by
        cases hc : isNarrow c with
        | true => rfl
        | false => rw [behind?_wide hmark hc] at hmiss; cases hmiss
      rw [scanBytes_narrow hmark hc hquote, hmiss, offsetOutside?_cons_mark hmiss]
      rfl

theorem inside_cons {q : Char} (hq : isQuote q = true) :
    scanBytes (bytes mark) (some q.toUInt8) i (bytes (c :: s)) =
      (offsetOutside? mark (.inside q) (c :: s)).map (i + ·) := by
  rw [offsetOutside?_cons mark s c (.inside q) (by simp), map_add_map_add, Quoting.next]
  cases hc : isNarrow c with
  | false =>
    have hslash : c ≠ '\\' := (ne_of_wide (by decide) hc).symm
    have hcq : c ≠ q := (ne_of_wide (isNarrow_of_isQuote hq) hc).symm
    rw [bytes_cons, scanBytes_wide hmark hc, h.inside q hq, if_neg hslash, if_neg hcq]
    rintro b hb
    exact ⟨q, isNarrow_of_isQuote hq, (Option.some.inj hb).symm⟩
  | true =>
    have hone : c.utf8Size = 1 := beq_iff_eq.mp hc
    by_cases hslash : c = '\\'
    · rw [if_pos hslash, bytes_cons_of_narrow hc, hslash, h.backslash q hq]
      rfl
    · rw [if_neg hslash, scanBytes_inside hc hq hslash, hone]
      by_cases hcq : c = q
      · rw [if_pos hcq, if_pos hcq, h.outside]
      · rw [if_neg hcq, if_neg hcq, h.inside q hq]

/-- Behind a backslash the quote is passed over; anything else is read as if no backslash stood
before it, a second backslash being one that protects. -/
theorem backslash_cons {q : Char} (hq : isQuote q = true) :
    scanBytes (bytes mark) (some q.toUInt8) i ('\\'.toUInt8 :: bytes (c :: s)) =
      (offsetOutside? mark (.backslash q) (c :: s)).map (i + 1 + ·) := by
  rw [scanBytes_backslash hq]
  have hbehind := offsetOutside?_cons mark s c (.backslash q) (by simp)
  rw [Quoting.next] at hbehind
  by_cases hcq : c = q
  · have hslash : c ≠ '\\' := by
      rintro rfl
      rw [← hcq] at hq
      cases hq
    rw [if_neg hslash] at hbehind
    rw [List.head?_cons, if_pos (congrArg some hcq), List.tail_cons, hbehind, map_add_map_add,
      h.inside q hq, beq_iff_eq.mp (isNarrow_of_isQuote (hcq ▸ hq))]
  · rw [if_neg (by simpa using hcq)]
    by_cases hslash : c = '\\'
    · rw [if_pos hslash] at hbehind
      rw [hbehind, map_add_map_add, hslash, bytes_cons_of_narrow (by decide), h.backslash q hq]
      rfl
    · have hinside := offsetOutside?_cons mark s c (.inside q) (by simp)
      rw [Quoting.next, if_neg hslash, if_neg hcq] at hinside
      rw [if_neg hslash, ← hinside] at hbehind
      rw [h.inside_cons hmark c (i + 1) hq, hbehind]

end ScannedAlike

theorem scannedAlike (s : List Char) : ScannedAlike mark s := by
  induction s with
  | nil => exact ⟨fun _ => rfl, fun _ _ _ => rfl, fun _ _ _ => rfl⟩
  | cons c s ih =>
    exact ⟨ih.outside_cons hmark c, fun q hq i => ih.inside_cons hmark c i hq,
      fun q hq i => ih.backslash_cons hmark c i hq⟩

theorem scanUntil_append (before s : List Char) :
    scanUntil (before ++ s) (size before) mark =
      (cutOutside mark .outside s).map fun (body, _) => size before + size body := by
  rw [scanUntil, drop_bytes_append, (scannedAlike hmark s).outside, offsetOutside?, Option.map_map]
  rfl

end

end Stencil.Text
