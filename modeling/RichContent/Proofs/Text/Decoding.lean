/-
What decoding replaces.

A reference is a name of the table, or a number that is the number of a
character, in decimal digits behind `#` or in hexadecimal digits behind `#x`
(`Refers`). A text is decoded from the left: a reference gives its character,
and everything else is copied, the `&` of what is no reference included
(`Decoded`). `decode` does just this, but it passes over a plus sign in front
of the digits, so that `&#+65;` is a letter to it. Exactly where no such number
stands in a text, the references without a sign are all that is replaced
(`decode_eq_iff_decoded`).
-/
import Mathlib.Data.List.Induction
import Mathlib.Tactic.IntervalCases
import RichContent.Proofs.Text.Reference

namespace RichContent.Text

/-! ## Digits -/

/-- The digits write the number in a base: they are its numeral with any number of zeros in front,
and may be capital or small letters. -/
def Writes (base : Nat) (digits : Text) (n : Nat) : Prop :=
  ∃ zeros, lower digits = List.replicate zeros '0' ++ Nat.toDigits base n

theorem digitValue?_toLower (c : Char) : digitValue? c.toLower = digitValue? c := by
  by_cases hupper : 65 ≤ c.toNat ∧ c.toNat ≤ 90
  · rw [← Char.ofNat_toNat c]
    generalize c.toNat = n at hupper
    obtain ⟨hlow, hhigh⟩ := hupper
    interval_cases n <;> rfl
  · have hsame : c.toLower = c := by
      unfold Char.toLower
      exact dif_neg hupper
    rw [hsame]

theorem digitValue?_eq_some {c : Char} {d : Nat} (h : digitValue? c = some d) :
    c.toLower = d.digitChar ∧ c.isAlphanum = true := by
  have hcases : (48 ≤ c.toNat ∧ c.toNat ≤ 57) ∨ (97 ≤ c.toNat ∧ c.toNat ≤ 102) ∨
      (65 ≤ c.toNat ∧ c.toNat ≤ 70) := by
    simp only [digitValue?] at h
    split at h
    · exact .inl ‹_›
    · split at h
      · exact .inr (.inl ‹_›)
      · split at h
        · exact .inr (.inr ‹_›)
        · cases h
  rw [← Char.ofNat_toNat c] at h ⊢
  generalize c.toNat = n at hcases h
  rcases hcases with ⟨hlow, hhigh⟩ | ⟨hlow, hhigh⟩ | ⟨hlow, hhigh⟩
  all_goals
    interval_cases n
    all_goals
      obtain rfl := Option.some.inj h
      decide

theorem digitIn?_eq_some {base d : Nat} {c : Char} :
    digitIn? base c = some d ↔ digitValue? c = some d ∧ d < base := by
  simp [digitIn?, Option.filter_eq_some_iff]

theorem digitIn?_toLower (base : Nat) (c : Char) : digitIn? base c.toLower = digitIn? base c := by
  rw [digitIn?, digitValue?_toLower, digitIn?]

theorem digitIn?_digitChar {base d : Nat} (hmax : base ≤ 16) (h : d < base) :
    digitIn? base d.digitChar = some d := by
  have hvalue : ∀ d < 16, digitValue? (Nat.digitChar d) = some d := by decide
  exact digitIn?_eq_some.2 ⟨hvalue d (by omega), h⟩

/-! ## Numbers -/

section

variable {base n : Nat} {digits : Text}

theorem digitsValue?_append (acc : Nat) (s t : Text) :
    digitsValue? base acc (s ++ t) = (digitsValue? base acc s).bind (digitsValue? base · t) := by
  induction s generalizing acc with
  | nil => rfl
  | cons c s ih =>
    rw [List.cons_append, digitsValue?, digitsValue?]
    cases digitIn? base c with
    | none => rfl
    | some d => exact ih (acc * base + d)

theorem digitsValue?_lower (acc : Nat) (t : Text) :
    digitsValue? base acc (lower t) = digitsValue? base acc t := by
  induction t generalizing acc with
  | nil => rfl
  | cons c t ih =>
    show digitsValue? base acc (c.toLower :: lower t) = _
    rw [digitsValue?, digitsValue?, digitIn?_toLower]
    cases digitIn? base c with
    | none => rfl
    | some d => exact ih (acc * base + d)

theorem isAlphanum_of_digitsValue? {acc : Nat} (h : digitsValue? base acc digits = some n) :
    ∀ c ∈ digits, c.isAlphanum = true := by
  induction digits generalizing acc with
  | nil => simp
  | cons c digits ih =>
    rw [digitsValue?] at h
    split at h
    · rename_i d hd
      exact List.forall_mem_cons.2 ⟨(digitValue?_eq_some (digitIn?_eq_some.1 hd).1).2, ih h⟩
    · cases h

theorem digitsValue?_zeros (hbase : 1 < base) (hmax : base ≤ 16) (zeros : Nat) (t : Text) :
    digitsValue? base 0 (List.replicate zeros '0' ++ t) = digitsValue? base 0 t := by
  have hzero : digitIn? base '0' = some 0 := digitIn?_digitChar (d := 0) hmax (by omega)
  induction zeros with
  | zero => rfl
  | succ zeros ih =>
    rw [List.replicate_succ, List.cons_append, digitsValue?, hzero]
    simpa using ih

theorem digitsValue?_toDigits (hbase : 1 < base) (hmax : base ≤ 16) (n : Nat) :
    digitsValue? base 0 (Nat.toDigits base n) = some n := by
  induction n using Nat.strongRecOn with
  | ind n ih =>
    rw [Nat.toDigits_eq_if hbase]
    split
    · rename_i hn
      rw [digitsValue?, digitIn?_digitChar hmax hn]
      simp [digitsValue?]
    · have hquot : n / base < n := Nat.div_lt_self (by omega) hbase
      have hrem : n % base < base := Nat.mod_lt _ (by omega)
      rw [digitsValue?_append, ih _ hquot, Option.bind_some, digitsValue?,
        digitIn?_digitChar hmax hrem]
      simp [digitsValue?, Nat.div_add_mod']

theorem writes_of_digitsValue? (hbase : 1 < base) (hne : digits ≠ [])
    (h : digitsValue? base 0 digits = some n) : Writes base digits n := by
  induction digits using List.reverseRecOn generalizing n with
  | nil => exact absurd rfl hne
  | append_singleton digits c ih =>
    rw [digitsValue?_append] at h
    obtain ⟨m, hm, hc⟩ := Option.bind_eq_some_iff.1 h
    rw [digitsValue?] at hc
    split at hc
    · rename_i d hd
      obtain rfl := Option.some.inj hc
      obtain ⟨hvalue, hlt⟩ := digitIn?_eq_some.1 hd
      have hlower : lower (digits ++ [c]) = lower digits ++ Nat.toDigits base d := by
        rw [Nat.toDigits_of_lt_base hlt, ← (digitValue?_eq_some hvalue).1]
        simp [lower]
      by_cases hnil : digits = []
      · subst hnil
        obtain rfl := Option.some.inj hm
        exact ⟨0, by simpa [lower] using hlower⟩
      · obtain ⟨zeros, hzeros⟩ := ih hnil hm
        rw [hzeros, List.append_assoc] at hlower
        by_cases hzero : m = 0
        · -- zeros only, and the numeral of zero is one of them
          subst hzero
          refine ⟨zeros + 1, ?_⟩
          simpa [List.replicate_succ'] using hlower
        · refine ⟨zeros, ?_⟩
          rw [hlower, Nat.toDigits_append_toDigits hbase (by omega) hlt, Nat.mul_comm]
    · cases hc

/-- Digits write the number that is read from them. -/
theorem writes_iff (hbase : 1 < base) (hmax : base ≤ 16) :
    Writes base digits n ↔ digits ≠ [] ∧ digitsValue? base 0 digits = some n := by
  constructor
  · intro h
    obtain ⟨zeros, hzeros⟩ := h
    constructor
    · rintro rfl
      exact Nat.toDigits_ne_nil (List.append_eq_nil_iff.1 hzeros.symm).2
    · rw [← digitsValue?_lower, hzeros, digitsValue?_zeros hbase hmax,
        digitsValue?_toDigits hbase hmax]
  · intro h
    exact writes_of_digitsValue? hbase h.1 h.2

end

/-! ## References -/

/-- What may stand in front of the digits. -/
def Sign (signed : Bool) (sign : Text) : Prop := sign = [] ∨ (signed = true ∧ sign = ['+'])

/-- What can stand between `&` and `;`, and the character that it gives; its number is a Unicode
scalar value, because every character's is. -/
inductive Refers (signed : Bool) : Text → Char → Prop
  | named {name : Text} {c : Char} : (name, c) ∈ namedReferences → Refers signed name c
  | decimal {sign digits : Text} {c : Char} : Sign signed sign → Writes 10 digits c.toNat →
    Refers signed ('#' :: (sign ++ digits)) c
  | hexadecimal {x : Char} {sign digits : Text} {c : Char} : x = 'x' ∨ x = 'X' →
    Sign signed sign → Writes 16 digits c.toNat → Refers signed ('#' :: x :: (sign ++ digits)) c

theorem Refers.signed {name : Text} {c : Char} (h : Refers false name c) : Refers true name c := by
  have hsign : ∀ {sign : Text}, Sign false sign → Sign true sign := by
    intro sign hs
    rcases hs with hs | ⟨hs, -⟩
    · exact .inl hs
    · cases hs
  cases h with
  | named h => exact .named h
  | decimal hs hd => exact .decimal (hsign hs) hd
  | hexadecimal hx hs hd => exact .hexadecimal hx (hsign hs) hd

section

variable {base n : Nat} {name : Text} {c : Char}

theorem Refers.unsigned (h : Refers true name c) (hplus : '+' ∉ name) : Refers false name c := by
  have hsign : ∀ {sign : Text}, Sign true sign → '+' ∉ sign → Sign false sign := by
    intro sign hs hno
    rcases hs with hs | ⟨-, rfl⟩
    · exact .inl hs
    · exact absurd (List.mem_singleton_self _) hno
  cases h with
  | named h => exact .named h
  | decimal hs hd =>
    simp only [List.mem_cons, List.mem_append, not_or] at hplus
    exact .decimal (hsign hs hplus.2.1) hd
  | hexadecimal hx hs hd =>
    simp only [List.mem_cons, List.mem_append, not_or] at hplus
    exact .hexadecimal hx (hsign hs hplus.2.2.1) hd

theorem number?_eq_some (hbase : 1 < base) (hmax : base ≤ 16) {t : Text} :
    number? base t = some n ↔
      ∃ sign digits, t = sign ++ digits ∧ Sign true sign ∧ Writes base digits n := by
  have hplus : ∀ acc t, digitsValue? base acc ('+' :: t) = none := by
    intro acc t
    rw [digitsValue?, show digitIn? base '+' = none from rfl]
  constructor
  · intro h
    unfold number? at h
    split at h
    · cases h
    · cases h
    · rename_i digits hne
      exact ⟨['+'], digits, rfl, .inr ⟨rfl, rfl⟩,
        writes_of_digitsValue? hbase (fun hnil => hne (by rw [hnil])) h⟩
    · rename_i hne _ _
      exact ⟨[], t, rfl, .inl rfl, writes_of_digitsValue? hbase hne h⟩
  · intro h
    obtain ⟨sign, digits, rfl, hsign, hdigits⟩ := h
    obtain ⟨hne, hvalue⟩ := (writes_iff hbase hmax).1 hdigits
    obtain ⟨d, digits, rfl⟩ := List.exists_cons_of_ne_nil hne
    rcases hsign with rfl | ⟨-, rfl⟩
    · have hd : d ≠ '+' := by
        rintro rfl
        rw [hplus] at hvalue
        cases hvalue
      simpa [number?, hd] using hvalue
    · simpa [number?] using hvalue

theorem scalar?_eq_some : scalar? n = some c ↔ c.toNat = n := by
  constructor
  · intro h
    unfold scalar? at h
    split at h
    · rename_i hvalid
      obtain rfl := Option.some.inj h
      unfold Char.ofNat
      rw [dif_pos hvalid]
      rfl
    · cases h
  · rintro rfl
    have hvalid : c.toNat.isValidChar := c.valid
    rw [scalar?, if_pos hvalid, Char.ofNat_toNat]

theorem number_bind_scalar (hbase : 1 < base) (hmax : base ≤ 16) {t : Text} :
    (number? base t).bind scalar? = some c ↔
      ∃ sign digits, t = sign ++ digits ∧ Sign true sign ∧ Writes base digits c.toNat := by
  rw [Option.bind_eq_some_iff]
  constructor
  · intro h
    obtain ⟨n, hn, hc⟩ := h
    rw [scalar?_eq_some] at hc
    subst hc
    exact (number?_eq_some hbase hmax).1 hn
  · intro h
    exact ⟨c.toNat, (number?_eq_some hbase hmax).2 h, scalar?_eq_some.2 rfl⟩

/-- No decimal number begins with an `x`. -/
theorem number?_ten_x {x : Char} (hx : x = 'x' ∨ x = 'X') (t : Text) : number? 10 (x :: t) = none := by
  rcases hx with rfl | rfl <;> rfl

/-- The names and numbers that are understood are those of references, signs allowed. -/
theorem referent?_eq_some : referent? name = some c ↔ Refers true name c := by
  constructor
  · intro h
    unfold referent? at h
    split at h
    · obtain ⟨sign, digits, rfl, hs, hd⟩ := (number_bind_scalar (by omega) (by omega)).1 h
      exact .hexadecimal (.inl rfl) hs hd
    · obtain ⟨sign, digits, rfl, hs, hd⟩ := (number_bind_scalar (by omega) (by omega)).1 h
      exact .hexadecimal (.inr rfl) hs hd
    · obtain ⟨sign, digits, rfl, hs, hd⟩ := (number_bind_scalar (by omega) (by omega)).1 h
      exact .decimal hs hd
    · obtain ⟨l₁, l₂, hmem, -⟩ := List.lookup_eq_some_iff.1 h
      exact .named (hmem ▸ List.mem_append_right l₁ List.mem_cons_self)
  · intro h
    cases h with
    | named h =>
      have hall : ∀ p ∈ namedReferences, referent? p.1 = some p.2 :=
        List.all_iff_forall_prop.1 (by decide)
      exact hall _ h
    | @decimal sign digits _ hs hd =>
      have hvalue : (number? 10 (sign ++ digits)).bind scalar? = some c :=
        (number_bind_scalar (by omega) (by omega)).2 ⟨sign, digits, rfl, hs, hd⟩
      generalize sign ++ digits = t at hvalue
      unfold referent?
      split
      · rename_i heq
        rw [(List.cons.inj heq).2, number?_ten_x (.inl rfl)] at hvalue
        cases hvalue
      · rename_i heq
        rw [(List.cons.inj heq).2, number?_ten_x (.inr rfl)] at hvalue
        cases hvalue
      · rename_i heq
        obtain rfl := (List.cons.inj heq).2
        exact hvalue
      · rename_i hno
        exact absurd rfl (hno t)
    | @hexadecimal x sign digits _ hx hs hd =>
      have hvalue := (number_bind_scalar (by omega) (by omega)).2 ⟨sign, digits, rfl, hs, hd⟩
      rcases hx with rfl | rfl <;> exact hvalue

theorem isAlphanum_of_writes (hbase : 1 < base) (hmax : base ≤ 16) {digits : Text}
    (h : Writes base digits n) : ∀ d ∈ digits, d.isAlphanum = true :=
  isAlphanum_of_digitsValue? ((writes_iff hbase hmax).1 h).2

/-- Apart from the sign a reference has letters, digits and a `#`. -/
theorem Refers.mem {signed : Bool} (h : Refers signed name c) {d : Char} (hd : d ∈ name) :
    d.isAlphanum = true ∨ d = '#' ∨ signed = true ∧ d = '+' := by
  have hnumber : ∀ {base : Nat} {sign digits : Text}, 1 < base → base ≤ 16 → Sign signed sign →
      Writes base digits c.toNat → d ∈ sign ++ digits →
      d.isAlphanum = true ∨ d = '#' ∨ signed = true ∧ d = '+' := by
    intro base sign digits hbase hmax hs hdigits hmem
    rcases List.mem_append.1 hmem with hmem | hmem
    · rcases hs with rfl | ⟨hsigned, rfl⟩
      · cases hmem
      · exact .inr (.inr ⟨hsigned, List.mem_singleton.1 hmem⟩)
    · exact .inl (isAlphanum_of_writes hbase hmax hdigits d hmem)
  cases h with
  | named h =>
    have hall : ∀ p ∈ namedReferences, p.1.all Char.isAlphanum = true :=
      List.all_iff_forall_prop.1 (by decide)
    exact .inl (List.all_eq_true.1 (hall _ h) d hd)
  | decimal hs hdigits =>
    rcases List.mem_cons.1 hd with rfl | hd
    · exact .inr (.inl rfl)
    · exact hnumber (by omega) (by omega) hs hdigits hd
  | hexadecimal hx hs hdigits =>
    rcases List.mem_cons.1 hd with rfl | hd
    · exact .inr (.inl rfl)
    · rcases List.mem_cons.1 hd with rfl | hd
      · rcases hx with rfl | rfl <;> exact .inl (by decide)
      · exact hnumber (by omega) (by omega) hs hdigits hd

theorem Refers.isReferenceChar (h : Refers true name c) :
    ∀ d ∈ name, Text.isReferenceChar d = true := by
  intro d hd
  rcases h.mem hd with hd | hd | ⟨-, hd⟩ <;> simp [Text.isReferenceChar, hd]

theorem Refers.plus_not_mem (h : Refers false name c) : '+' ∉ name := by
  intro hplus
  rcases h.mem hplus with hd | hd | ⟨hd, -⟩ <;> exact absurd hd (by decide)

/-- A reference is read where one stands, and nowhere else. -/
theorem reference?_eq_some {t rest : Text} :
    reference? t = some (c, rest) ↔ ∃ name, Refers true name c ∧ t = name ++ ';' :: rest := by
  constructor
  · intro h
    unfold reference? at h
    split at h
    · rename_i after hafter
      obtain ⟨d, hd, heq⟩ := Option.map_eq_some_iff.1 h
      cases heq
      refine ⟨t.takeWhile Text.isReferenceChar, referent?_eq_some.1 hd, ?_⟩
      rw [← hafter, List.takeWhile_append_dropWhile]
    · cases h
  · intro h
    obtain ⟨name, hname, rfl⟩ := h
    rw [reference?_append hname.isReferenceChar, referent?_eq_some.2 hname]
    rfl

end

/-! ## Decoding -/

/-- The second text is what the first one is decoded to, from the left, where these are the
references: each gives its character, and a character that begins none is copied. -/
inductive Decoded (refers : Text → Char → Prop) : Text → Text → Prop
  | nil : Decoded refers [] []
  | reference {name t u : Text} {c : Char} : refers name c → Decoded refers t u →
    Decoded refers ('&' :: name ++ ';' :: t) (c :: u)
  | copied {c : Char} {t u : Text} :
    (∀ name d rest, refers name d → c :: t ≠ '&' :: name ++ ';' :: rest) → Decoded refers t u →
    Decoded refers (c :: t) (c :: u)

theorem decoded_decode (t : Text) : Decoded (Refers true) t (decode t) := by
  induction hn : t.length using Nat.strongRecOn generalizing t with
  | ind n ih =>
    cases t with
    | nil =>
      rw [decode]
      exact .nil
    | cons c t =>
      rw [List.length_cons] at hn
      by_cases hc : c = '&'
      · subst hc
        cases href : reference? t with
        | some x =>
          obtain ⟨d, rest⟩ := x
          have hlt := length_lt_of_reference? href
          rw [decode_reference href]
          obtain ⟨name, hname, rfl⟩ := reference?_eq_some.1 href
          exact .reference hname (ih _ (by omega) rest rfl)
        | none =>
          rw [decode_of_no_reference href]
          refine .copied ?_ (ih _ (by omega) t rfl)
          intro name d rest hname heq
          rw [reference?_eq_some.2 ⟨name, hname, (List.cons.inj heq).2⟩] at href
          cases href
      · rw [decode_cons_of_ne hc]
        refine .copied ?_ (ih _ (by omega) t rfl)
        intro name d rest _ heq
        exact hc (List.cons.inj heq).1

/-- A character that begins no reference is copied. -/
theorem decode_copied {c : Char} {t : Text}
    (h : ∀ name d rest, Refers true name d → c :: t ≠ '&' :: name ++ ';' :: rest) :
    decode (c :: t) = c :: decode t := by
  by_cases hc : c = '&'
  · subst hc
    apply decode_of_no_reference
    rw [Option.eq_none_iff_forall_ne_some]
    intro x hx
    obtain ⟨name, hname, rfl⟩ := reference?_eq_some.1 hx
    exact h name x.1 x.2 hname rfl
  · exact decode_cons_of_ne hc t

theorem decode_refers {name : Text} {c : Char} (h : Refers true name c) (t : Text) :
    decode ('&' :: name ++ ';' :: t) = c :: decode t := by
  rw [List.cons_append, decode_reference (reference?_eq_some.2 ⟨name, h, rfl⟩)]

/-- There is one text that a text is decoded to. -/
theorem Decoded.eq_decode {t u : Text} (h : Decoded (Refers true) t u) : decode t = u := by
  induction h with
  | nil => rw [decode]
  | reference hname _ ih => rw [decode_refers hname, ih]
  | copied hno _ ih => rw [decode_copied hno, ih]

/-- Only what stands in the text matters. -/
theorem Decoded.congr {refers refers' : Text → Char → Prop} {t u : Text} (h : Decoded refers t u)
    (hsame : ∀ name c, '&' :: name ++ [';'] <:+: t → (refers name c ↔ refers' name c)) :
    Decoded refers' t u := by
  induction h with
  | nil => exact .nil
  | @reference name' t u d hname _ ih =>
    refine .reference ((hsame name' d ?_).1 hname) (ih fun name c hin => hsame name c ?_)
    · exact ⟨[], t, by simp⟩
    · have hsuffix : t <:+ '&' :: name' ++ ';' :: t := ⟨'&' :: name' ++ [';'], by simp⟩
      exact hin.trans hsuffix.isInfix
  | @copied c t u hno _ ih =>
    refine .copied ?_ (ih fun name c hin => hsame name c (hin.trans ?_))
    · intro name d rest hname heq
      refine hno name d rest ((hsame name d ?_).2 hname) heq
      exact ⟨[], rest, by rw [heq]; simp⟩
    · exact List.infix_cons List.infix_rfl

/-! ## Numbers with a sign -/

/-- No number with a sign stands between an `&` and a `;`. -/
def Unsigned (t : Text) : Prop :=
  ∀ name c, '&' :: name ++ [';'] <:+: t → Refers true name c → Refers false name c

theorem Unsigned.cons {c : Char} {t : Text} (ht : Unsigned t)
    (h : ∀ name d rest, Refers true name d → c :: t = '&' :: name ++ ';' :: rest →
      Refers false name d) : Unsigned (c :: t) := by
  intro name d hin hname
  rcases List.infix_cons_iff.1 hin with ⟨rest, heq⟩ | hin
  · apply h name d rest hname
    rw [← heq]
    simp
  · exact ht name d hin hname

theorem Unsigned.append {name t : Text} (ht : Unsigned t) (h : ∀ c ∈ name, c ≠ '&') :
    Unsigned (name ++ t) := by
  induction name with
  | nil => exact ht
  | cons c name ih =>
    obtain ⟨hc, hname⟩ := List.forall_mem_cons.1 h
    apply (ih hname).cons
    intro _ _ _ _ heq
    exact absurd (List.cons.inj heq).1 hc

theorem Refers.ne_ampersand {name : Text} {c : Char} (h : Refers true name c) :
    ∀ d ∈ name, d ≠ '&' := by
  rintro d hd rfl
  have hchar := h.isReferenceChar '&' hd
  exact absurd hchar (by decide)

theorem Unsigned.reference {name t : Text} {c : Char} (ht : Unsigned t)
    (h : Refers false name c) : Unsigned ('&' :: name ++ ';' :: t) := by
  have hrest : Unsigned (name ++ ';' :: t) := by
    have hsemicolon : Unsigned ([';'] ++ t) := ht.append (List.forall_mem_singleton.2 (by decide))
    exact hsemicolon.append h.signed.ne_ampersand
  apply hrest.cons
  intro name' d rest hname' heq
  rw [List.cons_append] at heq
  obtain ⟨-, htail⟩ := List.cons.inj heq
  -- both references are the one that is read
  have hread : reference? (name ++ ';' :: t) = some (c, t) :=
    reference?_eq_some.2 ⟨name, h.signed, rfl⟩
  rw [htail, reference?_eq_some.2 ⟨name', hname', rfl⟩] at hread
  obtain ⟨rfl, rfl⟩ := Prod.mk.inj (Option.some.inj hread)
  rw [← List.append_cancel_right htail]
  exact h

/-- With signs no more is left of a text than without them, and less where there is one. -/
theorem Decoded.unsigned_of_decode {t u : Text} (h : Decoded (Refers false) t u) :
    (decode t).length ≤ u.length ∧ (decode t = u → Unsigned t) := by
  induction h with
  | nil =>
    rw [decode]
    refine ⟨Nat.le_refl _, ?_⟩
    intro _ name c hin
    cases List.infix_nil.1 hin
  | reference hname _ ih =>
    obtain ⟨hlen, hunsigned⟩ := ih
    rw [decode_refers hname.signed]
    refine ⟨by simpa using hlen, ?_⟩
    intro heq
    exact (hunsigned (List.cons.inj heq).2).reference hname
  | @copied c t u hno _ ih =>
    obtain ⟨hlen, hunsigned⟩ := ih
    by_cases hsigned : ∃ name d rest, Refers true name d ∧ c :: t = '&' :: name ++ ';' :: rest
    · obtain ⟨name, d, rest, hname, heq⟩ := hsigned
      rw [List.cons_append] at heq
      obtain ⟨rfl, rfl⟩ := List.cons.inj heq
      -- of the number one character is left, and all of it is copied without its sign
      have hcopied : decode (name ++ ';' :: rest) = name ++ ';' :: decode rest := by
        rw [decode_append_of_ne hname.ne_ampersand, decode_cons_of_ne (by decide)]
      rw [hcopied, List.length_append, List.length_cons] at hlen
      have hshorter : (decode ('&' :: (name ++ ';' :: rest))).length < ('&' :: u).length := by
        rw [← List.cons_append, decode_refers hname, List.length_cons, List.length_cons]
        omega
      refine ⟨Nat.le_of_lt hshorter, ?_⟩
      intro heq
      rw [heq] at hshorter
      exact absurd hshorter (Nat.lt_irrefl _)
    · rw [decode_copied fun name d rest hname heq => hsigned ⟨name, d, rest, hname, heq⟩]
      refine ⟨by simpa using hlen, ?_⟩
      intro heq
      apply (hunsigned (List.cons.inj heq).2).cons
      intro name d rest hname hc
      exact absurd ⟨name, d, rest, hname, hc⟩ hsigned

theorem decode_eq_iff_signed (t u : Text) : decode t = u ↔ Decoded (Refers true) t u := by
  constructor
  · rintro rfl
    exact decoded_decode t
  · exact Decoded.eq_decode

/-- **Decoding replaces the references, from the left, and copies everything else.** With a plus
sign allowed in front of the digits of a number this is so for every text; and for the references
without a sign it is so exactly where no number with a sign stands between `&` and `;`. -/
theorem decode_eq_iff_decoded (t : Text) :
    (∀ u, decode t = u ↔ Decoded (Refers true) t u) ∧
      ((∀ u, decode t = u ↔ Decoded (Refers false) t u) ↔ Unsigned t) := by
  refine ⟨decode_eq_iff_signed t, ?_⟩
  constructor
  · intro h
    exact ((h (decode t)).1 rfl).unsigned_of_decode.2 rfl
  · intro hunsigned u
    have hsame : ∀ name c, '&' :: name ++ [';'] <:+: t →
        (Refers true name c ↔ Refers false name c) :=
      fun name c hin => ⟨hunsigned name c hin, Refers.signed⟩
    rw [decode_eq_iff_signed]
    constructor
    · exact fun h => h.congr hsame
    · exact fun h => h.congr fun name c hin => (hsame name c hin).symm

/-- Zeros in front, an `&` in front of a reference, a number of no character, no digits, and a
reference that is not finished. -/
theorem decode_mixed :
    let t := "&#x00041;&#169;&&nbsp;&#xD800;&#;&bogus;&lt".toList
    let u := "A©&\u00a0&#xD800;&#;&bogus;&lt".toList
    Unsigned t ∧ decode t = u ∧ Decoded (Refers false) t u := by
  intro t u
  have hplus : '+' ∉ t := by decide
  have hunsigned : Unsigned t := by
    intro name c hin h
    refine h.unsigned fun hmem => hplus (hin.subset ?_)
    exact List.mem_append_left _ (List.mem_cons_of_mem _ hmem)
  have hdecode : decode t = u := by decide +kernel
  exact ⟨hunsigned, hdecode, ((decode_eq_iff_decoded t).2.2 hunsigned u).1 hdecode⟩

/-- **A number with a sign is no reference, and is decoded.** -/
theorem decode_plusSign :
    let t := ['&', '#', '+', '6', '5', ';']
    Decoded (Refers false) t t ∧ decode t = ['A'] := by
  have hcopied : ∀ {c : Char} {t : Text}, c ≠ '&' → Decoded (Refers false) t t →
      Decoded (Refers false) (c :: t) (c :: t) := by
    intro c t hc h
    exact .copied (fun name d rest _ heq => hc (List.cons.inj heq).1) h
  refine ⟨.copied ?_ ?_, by decide +kernel⟩
  · -- what is between `&` and `;` would have to begin with `#+`
    intro name d rest hname heq
    have hplus := hname.plus_not_mem
    cases name with
    | nil => cases heq
    | cons hash name =>
      cases name with
      | nil => cases heq
      | cons plus name =>
        obtain rfl : '+' = plus := (List.cons.inj (List.cons.inj (List.cons.inj heq).2).2).1
        exact hplus (List.mem_cons_of_mem _ List.mem_cons_self)
  · exact hcopied (by decide) (hcopied (by decide) (hcopied (by decide) (hcopied (by decide)
      (hcopied (by decide) .nil))))

end RichContent.Text
