/-
Numbers in JSON.

A number ends where the next character is none of a number. So it is read the
same in every text that agrees with another as far as the characters of numbers
go (`Passes`): behind it may stand anything else (`passes_append`), and what
comes later may have been rewritten. A whole number that has a place in 64 bits
is read back from its numeral (`parse?_printInt`).
-/
import Mathlib.Data.List.Basic
import Mathlib.Data.List.TakeWhile
import RichContent.Json.Printer
import RichContent.Proofs.Json.Reading
import RichContent.Proofs.Text.Decoding

namespace RichContent

namespace Json

open Text

/-! ## Texts that agree -/

/-- The characters of numbers. -/
def isNumberChar (c : Char) : Bool :=
  c.isDigit || c == '.' || c == 'e' || c == 'E' || c == '+' || c == '-'

/-- The text begins with none of these characters. -/
def Starts (p : Char → Bool) (t : Text) : Prop := ∀ c ∈ t.head?, p c = false

theorem starts_or (p : Char → Bool) (t : Text) :
    Starts p t ∨ ∃ c r, p c = true ∧ t = c :: r := by
  cases t with
  | nil => exact .inl (by rintro c ⟨⟩)
  | cons c t =>
    cases hc : p c with
    | true => exact .inr ⟨c, t, hc, rfl⟩
    | false =>
      refine .inl ?_
      rintro d ⟨⟩
      exact hc

/-- Rewriting a text leaves a number at the front of it as it is. -/
structure Passes (h : Text → Text) : Prop where
  cons {c : Char} (t : Text) : isNumberChar c = true → h (c :: t) = c :: h t
  stop {t : Text} : Starts isNumberChar t → Starts isNumberChar (h t)

/-- The same has been read, and what is left is rewritten. -/
def onRest {α : Type} (h : Text → Text) (x : Option (α × Text)) : Option (α × Text) :=
  x.map fun (a, r) => (a, h r)

section

variable {α β : Type} {h : Text → Text}

@[simp] theorem onRest_none : onRest h (none : Option (α × Text)) = none := rfl

@[simp] theorem onRest_some (a : α) (r : Text) : onRest h (some (a, r)) = some (a, h r) := rfl

theorem onRest_bind {x : Option (α × Text)} {k k' : α × Text → Option (β × Text)}
    (hk : ∀ a r, k' (a, h r) = onRest h (k (a, r))) :
    (onRest h x).bind k' = onRest h (x.bind k) := by
  cases x with
  | none => rfl
  | some x => exact hk x.1 x.2

theorem onRest_map {x : Option (α × Text)} {f f' : α × Text → β × Text}
    (hf : ∀ a r, f' (a, h r) = ((f (a, r)).1, h (f (a, r)).2)) :
    (onRest h x).map f' = onRest h (x.map f) := by
  cases x with
  | none => rfl
  | some x => exact congrArg some (hf x.1 x.2)

end

namespace Passes

variable {h : Text → Text} (hh : Passes h)
include hh

/-- What is not in front is not in front of the rewritten text either. -/
theorem starts {p : Char → Bool} (hp : ∀ c, p c = true → isNumberChar c = true) {t : Text}
    (ht : Starts p t) : Starts p (h t) := by
  rcases starts_or isNumberChar t with hstop | ⟨c, r, hc, rfl⟩
  · intro c hc
    have hnone := hh.stop hstop c hc
    exact Bool.eq_false_iff.2 fun hpc => by rw [hp c hpc] at hnone; cases hnone
  · rw [hh.cons r hc]
    exact ht

theorem readDigits? (t : Text) : readDigits? (h t) = onRest h (readDigits? t) := by
  have hdigit (c : Char) (hc : c.isDigit = true) : isNumberChar c = true := by simp [isNumberChar, hc]
  have hother {t : Text} (ht : Starts Char.isDigit t) :
      t.takeWhile Char.isDigit = [] ∧ t.dropWhile Char.isDigit = t := by
    cases t with
    | nil => exact ⟨rfl, rfl⟩
    | cons c t => simp [ht c rfl]
  have hcut (t : Text) : (h t).takeWhile Char.isDigit = t.takeWhile Char.isDigit ∧
      (h t).dropWhile Char.isDigit = h (t.dropWhile Char.isDigit) := by
    induction t with
    | nil => exact hother (hh.starts hdigit (by rintro c ⟨⟩))
    | cons c t ih =>
      rcases starts_or Char.isDigit (c :: t) with ht | ⟨c, t, hc, heq⟩
      · rw [(hother ht).1, (hother ht).2]
        exact hother (hh.starts hdigit ht)
      · cases heq
        rw [hh.cons t (hdigit c hc)]
        simp [hc, ih]
  rw [Json.readDigits?, Json.readDigits?, (hcut t).1, (hcut t).2]
  split <;> rfl

theorem readFraction? (t : Text) : readFraction? (h t) = onRest h (readFraction? t) := by
  have hpoint (c : Char) (hc : (c == '.') = true) : isNumberChar c = true := by simp [isNumberChar, hc]
  have hother {t : Text} (ht : Starts (· == '.') t) : Json.readFraction? t = some (none, t) := by
    cases t with
    | nil => rfl
    | cons c t => rw [readFraction?_cons, if_neg (by simpa using ht c rfl)]
  rcases starts_or (· == '.') t with ht | ⟨c, r, hc, rfl⟩
  · rw [hother ht, hother (hh.starts hpoint ht)]
    rfl
  · rw [hh.cons r (hpoint c hc), readFraction?_cons, readFraction?_cons, if_pos (beq_iff_eq.1 hc),
      if_pos (beq_iff_eq.1 hc), hh.readDigits?]
    exact onRest_map fun _ _ => rfl

theorem readSigned? (t : Text) : readSigned? (h t) = onRest h (readSigned? t) := by
  have hsign (c : Char) (hc : (c == '-' || c == '+') = true) : isNumberChar c = true := by
    rcases Bool.or_eq_true_iff.1 hc with hc | hc <;> simp [isNumberChar, hc]
  have hother {t : Text} (ht : Starts (fun c => c == '-' || c == '+') t) : Json.readSigned? t =
      (Json.readDigits? t).map fun x => ((decimalValue x.1 : Int), x.2) := by
    cases t with
    | nil => rfl
    | cons c t =>
      obtain ⟨hminus, hplus⟩ := Bool.or_eq_false_iff.1 (ht c rfl)
      rw [Json.readSigned?, if_neg (by simpa using hminus), if_neg (by simpa using hplus)]
  rcases starts_or (fun c => c == '-' || c == '+') t with ht | ⟨c, r, hc, rfl⟩
  · rw [hother ht, hother (hh.starts hsign ht), hh.readDigits?]
    exact onRest_map fun _ _ => rfl
  · rw [hh.cons r (hsign c hc), Json.readSigned?, Json.readSigned?]
    split
    · rw [hh.readDigits?]
      exact onRest_map fun _ _ => rfl
    · rename_i hminus
      have hplus : c = '+' := by simpa [hminus] using hc
      rw [if_pos hplus, if_pos hplus, hh.readDigits?]
      exact onRest_map fun _ _ => rfl

theorem readExponent? (t : Text) : readExponent? (h t) = onRest h (readExponent? t) := by
  have hletter (c : Char) (hc : (c == 'e' || c == 'E') = true) : isNumberChar c = true := by
    rcases Bool.or_eq_true_iff.1 hc with hc | hc <;> simp [isNumberChar, hc]
  have hother {t : Text} (ht : Starts (fun c => c == 'e' || c == 'E') t) :
      Json.readExponent? t = some (none, t) := by
    cases t with
    | nil => rfl
    | cons c t => rw [readExponent?_cons, if_neg (by simpa using ht c rfl)]
  rcases starts_or (fun c => c == 'e' || c == 'E') t with ht | ⟨c, r, hc, rfl⟩
  · rw [hother ht, hother (hh.starts hletter ht)]
    rfl
  · have hc' : c = 'e' ∨ c = 'E' := by simpa using hc
    rw [hh.cons r (hletter c hc), readExponent?_cons, readExponent?_cons, if_pos hc', if_pos hc',
      hh.readSigned?]
    exact onRest_map fun _ _ => rfl

theorem readNumber? (negative : Bool) (t : Text) :
    readNumber? negative (h t) = onRest h (readNumber? negative t) := by
  rw [readNumber?_eq, readNumber?_eq, hh.readDigits?]
  refine onRest_bind fun whole r => ?_
  simp only
  rw [hh.readFraction?]
  refine onRest_bind fun fraction r => ?_
  simp only
  rw [hh.readExponent?]
  refine onRest_bind fun exponent r => ?_
  simp only
  cases numberOf? negative whole fraction exponent <;> rfl

end Passes

theorem passes_append {r : Text} (hr : Starts isNumberChar r) : Passes (· ++ r) where
  cons _ _ := rfl
  stop {t} ht := by
    cases t with
    | nil => exact hr
    | cons c t => exact ht

/-! ## Numbers as they are written -/

/-- What is a character of numbers begins no other value. -/
theorem readFrom?_number {c : Char} (hc : isNumberChar c = true) (fuel : Nat) (rest : Text) :
    readFrom? fuel c rest =
      if c = '-' then readNumber? true rest else readNumber? false (c :: rest) := by
  have hne {d : Char} (hd : isNumberChar d = false) : c ≠ d := by
    rintro rfl
    rw [hc] at hd
    cases hd
  rw [readFrom?, if_neg (hne (by decide)), if_neg (hne (by decide)), if_neg (hne (by decide)),
    if_neg (hne (by decide)), if_neg (hne (by decide)), if_neg (hne (by decide))]

theorem isBlank_of_isNumberChar {c : Char} (hc : isNumberChar c = true) : isBlank c = false := by
  rw [Bool.eq_false_iff]
  intro hblank
  simp only [isBlank, Bool.or_eq_true, beq_iff_eq] at hblank
  rcases hblank with ((rfl | rfl) | rfl) | rfl <;> cases hc

theorem skipBlanks_cons {c : Char} (hc : isBlank c = false) (t : Text) :
    skipBlanks (c :: t) = c :: t := by
  simp [skipBlanks, hc]

/-- A number that a text writes is read of it with anything else behind it. -/
theorem read?_number {t r : Text} {v : Json} (ht : ∀ c ∈ t, isNumberChar c = true)
    (hv : parse? t = some v) (hr : Starts isNumberChar r) (fuel : Nat) :
    read? (fuel + 1) (t ++ r) = some (v, r) := by
  rw [parse?_eq (Nat.le_refl _), Option.bind_eq_some_iff] at hv
  obtain ⟨⟨v', rest⟩, hread, hrest⟩ := hv
  obtain ⟨hblanks, rfl⟩ : skipBlanks rest = [] ∧ v' = v := by simpa using hrest
  have hnil : rest = [] := by
    have hsuffix := (leaves_read? _).1 t _ _ hread
    cases rest with
    | nil => rfl
    | cons c rest =>
      rw [skipBlanks_cons (isBlank_of_isNumberChar (ht c (hsuffix.mem List.mem_cons_self)))] at hblanks
      cases hblanks
  subst hnil
  cases t with
  | nil => cases hread
  | cons c t =>
    have hc := ht c List.mem_cons_self
    have hcons (t : Text) (n : Nat) : read? (n + 1) (c :: t) =
        if c = '-' then readNumber? true t else readNumber? false (c :: t) := by
      rw [read?_succ, skipBlanks_cons (isBlank_of_isNumberChar hc)]
      exact readFrom?_number hc n t
    rw [hcons] at hread
    rw [List.cons_append, hcons, ← List.cons_append, (passes_append hr).readNumber?,
      (passes_append hr).readNumber?]
    split at hread
    · rw [if_pos ‹_›, hread]
      rfl
    · rw [if_neg ‹_›, hread]
      rfl

/-! ## Whole numbers -/

theorem isDigit_of_mem_numeral {n : Nat} {c : Char} (hc : c ∈ numeral n) : c.isDigit = true :=
  Nat.isDigit_of_mem_toDigits (by decide) (by decide) hc

theorem head?_numeral (n : Nat) (hn : 0 < n) : (numeral n).head? ≠ some '0' := by
  induction n using Nat.strongRecOn with
  | ind n ih =>
    rw [numeral, Nat.toDigits_eq_if (by decide)]
    split
    · rename_i hsmall
      interval_cases n <;> decide
    · rw [List.head?_append_of_ne_nil _ Nat.toDigits_ne_nil]
      exact ih (n / 10) (by omega) (by omega)

theorem decimalValue_numeral (n : Nat) : decimalValue (numeral n) = n := by
  rw [decimalValue, numeral, digitsValue?_toDigits (by decide) (by decide)]
  rfl

theorem readNumber?_numeral {negative : Bool} {n : Nat}
    (hfits : fitsWord (if negative then -(n : Int) else n) = true) (hzero : negative = true → n ≠ 0) :
    readNumber? negative (numeral n) = some (.int (if negative then -(n : Int) else n), []) := by
  have hdigits : readDigits? (numeral n) = some (numeral n, []) := by
    have hall : ∀ c ∈ numeral n, c.isDigit = true := fun c => isDigit_of_mem_numeral
    rw [readDigits?, List.takeWhile_eq_self_iff.2 hall, List.dropWhile_eq_nil_iff.2 hall]
    exact if_neg Nat.toDigits_ne_nil
  have hlead : ¬ ((numeral n).length > 1 ∧ (numeral n).head? = some '0') := by
    rintro ⟨hlong, hhead⟩
    rcases Nat.eq_zero_or_pos n with rfl | hpos
    · exact absurd hlong (by decide)
    · exact head?_numeral n hpos hhead
  have hsign : (negative && n == 0) = false := by
    rw [Bool.and_eq_false_imp]
    intro hneg
    exact beq_eq_false_iff_ne.2 (hzero hneg)
  have hnumber : numberOf? negative (numeral n) none none =
      some (.int (if negative then -(n : Int) else n)) := by
    simp only [numberOf?, if_neg hlead, decimalValue_numeral, hfits, hsign]
    rfl
  rw [readNumber?_eq, hdigits]
  show (numberOf? negative (numeral n) none none).map _ = _
  rw [hnumber]
  rfl

theorem isNumberChar_of_mem_printInt {n : Int} {c : Char} (hc : c ∈ printInt n) :
    isNumberChar c = true := by
  have hdigit (hc : c ∈ numeral n.natAbs) : isNumberChar c = true := by
    simp [isNumberChar, isDigit_of_mem_numeral hc]
  rw [printInt] at hc
  split at hc
  · rcases List.mem_cons.1 hc with rfl | hc
    · rfl
    · exact hdigit hc
  · exact hdigit hc

/-- A whole number is read back. -/
theorem parse?_printInt {n : Int} (h : fitsWord n = true) : parse? (printInt n) = some (.int n) := by
  have hread (fuel : Nat) : read? (fuel + 1) (printInt n) = some (.int n, []) := by
    obtain ⟨c, t, ht⟩ : ∃ c t, printInt n = c :: t := List.exists_cons_of_ne_nil (by
      rw [printInt]
      split
      · exact List.cons_ne_nil _ _
      · exact Nat.toDigits_ne_nil)
    have hc : isNumberChar c = true := isNumberChar_of_mem_printInt (n := n) (by rw [ht]; simp)
    rw [ht, read?_succ, skipBlanks_cons (isBlank_of_isNumberChar hc)]
    show readFrom? fuel c t = _
    rw [readFrom?_number hc]
    rw [printInt] at ht
    split at ht
    · rename_i hneg
      obtain ⟨rfl, rfl⟩ := List.cons.inj ht
      have hvalue : (if true then -(n.natAbs : Int) else n.natAbs) = n := by
        rw [if_pos rfl]
        omega
      rw [if_pos rfl, readNumber?_numeral (by rw [hvalue]; exact h) (fun _ => by omega), hvalue]
    · rename_i hpos
      have hvalue : (if false then -(n.natAbs : Int) else n.natAbs) = n := by
        rw [if_neg Bool.false_ne_true]
        omega
      have hminus : c ≠ '-' := by
        rintro rfl
        have hdigit : '-'.isDigit = true := isDigit_of_mem_numeral (n := n.natAbs) (by rw [ht]; simp)
        cases hdigit
      rw [if_neg hminus, ← ht, readNumber?_numeral (by rw [hvalue]; exact h) (by rintro ⟨⟩), hvalue]
  rw [parse?_eq (Nat.le_refl _), hread]
  rfl

end Json

end RichContent
