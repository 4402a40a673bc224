/-
Reading JSON part by part.

Each reader looks at one character and goes on with what follows it; here that
is said in one equation for each kind of part, so that later proofs never open
a reader. What is left of a text is an end of it (`Leaves`), and so fuel
that is enough for the length of the text makes no difference: what is read
with any fuel is read with that (`kept_read?`).
-/
import Mathlib.Tactic.SplitIfs
import RichContent.Json.Reader

namespace RichContent

namespace Json

open Text

/-! ## One character -/

/-- What follows a mark that may have blanks before it. -/
def mark? (c : Char) (t : Text) : Option Text := after? [c] (skipBlanks t)

variable {t r rest word : Text} {c d : Char}

theorem after?_eq_none (h : ∀ r, t = word ++ r → False) : after? word t = none :=
  Option.eq_none_iff_forall_ne_some.2 fun r hr => h r (after?_eq_some.1 hr)

theorem mark?_of_eq (h : skipBlanks t = d :: r) : mark? c t = if c = d then some r else none := by
  rw [mark?, h, after?]
  rfl

theorem mark?_eq_none (h : ∀ r, skipBlanks t = c :: r → False) : mark? c t = none :=
  after?_eq_none h

theorem suffix_of_mark? (h : mark? c t = some r) : c :: r <:+ t := by
  have hskip : skipBlanks t = c :: r := after?_eq_some.1 h
  rw [← hskip]
  exact List.dropWhile_suffix _

/-! ## Strings -/

/-- A digit to the base sixteen. -/
def readDigit? : Text → Option (Nat × Text)
  | c :: rest => (digitValue? c).map fun d => (d, rest)
  | [] => none

theorem readUnit?_eq (t : Text) : readUnit? t =
    (readDigit? t).bind fun (a, t) => (readDigit? t).bind fun (b, t) =>
      (readDigit? t).bind fun (c, t) => (readDigit? t).map fun (d, t) =>
        (((a * 16 + b) * 16 + c) * 16 + d, t) := by
  rcases t with _ | ⟨a, _ | ⟨b, _ | ⟨c, _ | ⟨d, t⟩⟩⟩⟩
  all_goals simp [readUnit?, readDigit?, Option.map_eq_bind, Option.bind_assoc]

/-- What the unit that has been read stands for: a character, or the first half of a pair. -/
def unit? (high : Nat) (rest : Text) : Option (Char × Text) :=
  if 0xD800 ≤ high ∧ high < 0xDC00 then
    (after? ['\\', 'u'] rest).bind fun rest => (readUnit? rest).bind fun (low, rest) =>
      if 0xDC00 ≤ low ∧ low < 0xE000 then
        some (Char.ofNat (0x10000 + (high - 0xD800) * 0x400 + (low - 0xDC00)), rest)
      else none
  else if 0xDC00 ≤ high ∧ high < 0xE000 then none
  else some (Char.ofNat high, rest)

theorem readEscaped?_eq (t : Text) :
    readEscaped? t = (readUnit? t).bind fun (high, rest) => unit? high rest := by
  rw [readEscaped?]
  refine congrArg _ (funext fun (high, rest) => ?_)
  simp only [unit?]
  split
  · split
    · simp [after?]
    · rename_i hother
      rw [after?_eq_none hother]
      rfl
  · rfl

/-- The character that is written by what follows a backslash. -/
def readEscape? : Text → Option (Char × Text)
  | c :: rest => if c = 'u' then readEscaped? rest else (simpleEscape? c).map fun d => (d, rest)
  | [] => none

/-- The character of a string that is written by a character and what follows it. -/
def readChar? (c : Char) (rest : Text) : Option (Char × Text) :=
  if c = '\\' then readEscape? rest else if c.toNat < 32 then none else some (c, rest)

theorem readText?_cons (fuel : Nat) (c : Char) (rest : Text) : readText? (fuel + 1) (c :: rest) =
    if c = '"' then some ([], rest)
    else (readChar? c rest).bind fun (d, rest) =>
      (readText? fuel rest).map fun (t, rest) => (d :: t, rest) := by
  rw [readText?.eq_def]
  simp only [readChar?]
  split
  · rfl
  · split
    · split
      · rename_i hu
        simp only [readEscape?, if_pos]
        cases readEscaped? _ with
        | none => rfl
        | some x => cases h : readText? fuel x.2 <;> simp [h]
      · rename_i c' rest' hu
        have hne : c' ≠ 'u' := by
          rintro rfl
          exact hu rfl
        simp only [readEscape?, if_neg hne]
        cases simpleEscape? c' with
        | none => rfl
        | some x => cases h : readText? fuel rest' <;> simp [h]
      · rfl
    · split
      · rfl
      · cases h : readText? fuel rest <;> simp [h]

/-! ## Numbers -/

/-- A whole number that may have a sign. -/
def readSigned? : Text → Option (Int × Text)
  | c :: rest =>
    if c = '-' then (readDigits? rest).map fun (digits, rest) => (-(decimalValue digits : Int), rest)
    else (readDigits? (if c = '+' then rest else c :: rest)).map fun (digits, rest) =>
      ((decimalValue digits : Int), rest)
  | [] => none

theorem readExponent?_cons (c : Char) (rest : Text) : readExponent? (c :: rest) =
    if c = 'e' ∨ c = 'E' then (readSigned? rest).map fun (n, rest) => (some n, rest)
    else some (none, c :: rest) := by
  rw [readExponent?.eq_def]
  simp only
  split
  · split
    · simp only [readSigned?, if_pos]
      cases readDigits? _ <;> rfl
    · simp only [readSigned?, if_pos, if_neg (show '+' ≠ '-' by decide)]
      cases readDigits? _ <;> rfl
    · rename_i hminus hplus
      cases rest with
      | nil => rfl
      | cons c' rest =>
        have hne : c' ≠ '-' := by rintro rfl; exact hminus rest rfl
        have hne' : c' ≠ '+' := by rintro rfl; exact hplus rest rfl
        simp only [readSigned?, if_neg hne, if_neg hne']
        cases readDigits? _ <;> rfl
  · rfl

theorem readFraction?_cons (c : Char) (rest : Text) : readFraction? (c :: rest) =
    if c = '.' then (readDigits? rest).map fun (digits, rest) => (some digits, rest)
    else some (none, c :: rest) := by
  split
  · rename_i h
    subst h
    simp only [readFraction?]
    cases readDigits? rest <;> rfl
  · rename_i h
    rw [readFraction?]
    rintro r heq
    exact h (List.cons.inj heq).1

/-- The number that is made of its parts. -/
def numberOf? (negative : Bool) (whole : Text) (fraction : Option Text) (exponent : Option Int) :
    Option Json :=
  let n := decimalValue whole
  let signed : Int := if negative then -(n : Int) else n
  if whole.length > 1 ∧ whole.head? = some '0' then none
  else if fraction.isNone && exponent.isNone && fitsWord signed && !(negative && n == 0) then
    some (int signed)
  else
    let fraction := fraction.getD []
    (Binary64.ofDecimal negative
      ⟨decimalValue (whole ++ fraction), exponent.getD 0 - fraction.length⟩).map float

theorem readNumber?_eq (negative : Bool) (t : Text) : readNumber? negative t =
    (readDigits? t).bind fun (whole, rest) => (readFraction? rest).bind fun (fraction, rest) =>
      (readExponent? rest).bind fun (exponent, rest) =>
        (numberOf? negative whole fraction exponent).map fun v => (v, rest) := by
  rw [readNumber?]
  refine congrArg _ (funext fun (whole, rest) => ?_)
  simp only [numberOf?]
  split
  · simp
  · refine congrArg _ (funext fun (fraction, rest) => ?_)
    refine congrArg _ (funext fun (exponent, rest) => ?_)
    generalize (if negative = true then -(decimalValue whole : Int) else decimalValue whole) = signed
    split
    · rfl
    · simp only [Option.bind_eq_bind, Option.pure_def]
      cases Binary64.ofDecimal _ _ <;> rfl

/-! ## Values -/

variable {α : Type}

/-- What is between brackets: nothing, or what `read` reads. -/
def readInside? (close : Char) (make : List α → Json) (read : Text → Option (List α × Text))
    (t : Text) : Option (Json × Text) :=
  match mark? close t with
  | some rest => some (make [], rest)
  | none => (read (skipBlanks t)).map fun (l, rest) => (make l, rest)

/-- What follows one of the parts between brackets: a comma and more of them, or the bracket. -/
def readMore? (close : Char) (read : Text → Option (List α × Text)) (a : α) (t : Text) :
    Option (List α × Text) :=
  match mark? ',' t with
  | some rest => (read rest).map fun (l, rest) => (a :: l, rest)
  | none => (mark? close t).map fun rest => ([a], rest)

/-- An object of the fields that have been read. -/
def makeObj (fields : List (Text × Json)) : Json := obj (Table.ofList fields)

/-- The value that is written by a character and what follows it. -/
def readFrom? (fuel : Nat) (c : Char) (rest : Text) : Option (Json × Text) :=
  if c = 'n' then (after? ['u', 'l', 'l'] rest).map fun rest => (null, rest)
  else if c = 't' then (after? ['r', 'u', 'e'] rest).map fun rest => (bool true, rest)
  else if c = 'f' then (after? ['a', 'l', 's', 'e'] rest).map fun rest => (bool false, rest)
  else if c = '"' then (readText? (fuel + 1) rest).map fun (t, rest) => (str t, rest)
  else if c = '[' then readInside? ']' arr (readItems? fuel) rest
  else if c = '\x7b' then readInside? '\x7d' makeObj (readFields? fuel) rest
  else if c = '-' then readNumber? true rest
  else readNumber? false (c :: rest)

/-- No number begins with one of these. -/
theorem readNumber?_of_ne {c : Char} (h : c.isDigit = false) (negative : Bool) (rest : Text) :
    readNumber? negative (c :: rest) = none := by
  rw [readNumber?_eq, readDigits?]
  simp [h]

theorem read?_succ (fuel : Nat) (t : Text) : read? (fuel + 1) t =
    match skipBlanks t with
    | c :: rest => readFrom? fuel c rest
    | [] => none := by
  rw [read?]
  generalize skipBlanks t = u
  split
  all_goals try rfl
  · rename_i rest
    show _ = readInside? ']' arr (readItems? fuel) rest
    rw [readInside?]
    split
    · rename_i hclose
      rw [mark?_of_eq hclose, if_pos rfl]
    · rename_i hother
      rw [mark?_eq_none hother]
  · rename_i rest
    show _ = readInside? '\x7d' makeObj (readFields? fuel) rest
    rw [readInside?]
    split
    · rename_i hclose
      rw [mark?_of_eq hclose, if_pos rfl]
      rfl
    · rename_i hother
      rw [mark?_eq_none hother]
      rfl
  · rename_i hnull htrue hfalse hquote harr hobj hminus
    cases u with
    | nil => rfl
    | cons c rest =>
      show _ = readFrom? fuel c rest
      have hword {word : Text} {c' : Char} (hc : c'.isDigit = false)
          (h : ∀ r, c :: rest = c' :: (word ++ r) → False) (v : Json) (heq : c = c') :
          readNumber? false (c :: rest) = (after? word rest).map fun rest => (v, rest) := by
        subst heq
        rw [readNumber?_of_ne hc, after?_eq_none fun r hr => h r (by rw [hr])]
        rfl
      have hne {c' : Char} (h : ∀ r, c :: rest = c' :: r → False) : c ≠ c' := by
        rintro rfl
        exact h rest rfl
      by_cases hn : c = 'n'
      · rw [readFrom?, if_pos hn]
        exact hword (by decide) hnull _ hn
      by_cases ht : c = 't'
      · rw [readFrom?, if_neg hn, if_pos ht]
        exact hword (by decide) htrue _ ht
      by_cases hf : c = 'f'
      · rw [readFrom?, if_neg hn, if_neg ht, if_pos hf]
        exact hword (by decide) hfalse _ hf
      rw [readFrom?, if_neg hn, if_neg ht, if_neg hf, if_neg (hne hquote), if_neg (hne harr),
        if_neg (hne hobj), if_neg (hne hminus)]

theorem readItems?_succ (fuel : Nat) (t : Text) : readItems? (fuel + 1) t =
    (read? fuel t).bind fun (item, rest) => readMore? ']' (readItems? fuel) item rest := by
  rw [readItems?]
  refine congrArg _ (funext fun (item, rest) => ?_)
  simp only [readMore?]
  split
  · rename_i hcomma
    simp only [mark?_of_eq hcomma, if_pos]
    cases readItems? fuel _ <;> rfl
  · rename_i hclose
    simp only [mark?_of_eq hclose, if_pos, if_neg (show ',' ≠ ']' by decide)]
    rfl
  · rename_i hcomma hclose
    rw [mark?_eq_none hcomma, mark?_eq_none hclose]
    rfl

theorem readFields?_succ (fuel : Nat) (t : Text) : readFields? (fuel + 1) t =
    (mark? '"' t).bind fun rest => (readText? (fuel + 1) rest).bind fun (key, rest) =>
      (mark? ':' rest).bind fun rest => (read? fuel rest).bind fun (value, rest) =>
        readMore? '\x7d' (readFields? fuel) (key, value) rest := by
  rw [readFields?]
  split
  · rename_i hquote
    rw [mark?_of_eq hquote, if_pos rfl, Option.bind_some]
    refine congrArg (Option.bind _) (funext fun (key, rest) => ?_)
    simp only
    split
    · rename_i hcolon
      rw [mark?_of_eq hcolon, if_pos rfl, Option.bind_some]
      refine congrArg (Option.bind _) (funext fun (value, rest) => ?_)
      simp only [readMore?]
      split
      · rename_i hcomma
        simp only [mark?_of_eq hcomma, if_pos]
        cases readFields? fuel _ <;> rfl
      · rename_i hclose
        simp only [mark?_of_eq hclose, if_pos, if_neg (show ',' ≠ '\x7d' by decide)]
        rfl
      · rename_i hcomma hclose
        rw [mark?_eq_none hcomma, mark?_eq_none hclose]
        rfl
    · rename_i hother
      rw [mark?_eq_none hother]
      rfl
  · rename_i hother
    rw [mark?_eq_none hother]
    rfl

/-! ## What is left -/

/-- What is left of a text after something has been read is an end of it. -/
def Leaves {α : Type} (x : Option (α × Text)) (t : Text) : Prop :=
  ∀ a r, x = some (a, r) → r <:+ t

namespace Leaves

variable {α β : Type} {x : Option (α × Text)}

theorem none : Leaves (Option.none : Option (α × Text)) t := by rintro _ _ ⟨⟩

theorem some {a : α} (h : r <:+ t) : Leaves (some (a, r)) t := by
  rintro _ _ ⟨⟩
  exact h

/-- Something that reads nothing itself. -/
theorem pair (x : Option α) (t : Text) : Leaves (x.map fun a => (a, t)) t := by
  intro a r h
  obtain ⟨_, -, heq⟩ := Option.map_eq_some_iff.1 h
  cases heq
  exact List.suffix_refl _

theorem mono (h : Leaves x r) (hr : r <:+ t) : Leaves x t := fun a s hs => (h a s hs).trans hr

theorem bind {k : α × Text → Option (β × Text)} (h : Leaves x t)
    (hk : ∀ a r, Leaves (k (a, r)) r) : Leaves (x.bind k) t := by
  intro b s hs
  obtain ⟨⟨a, r⟩, hx, hs⟩ := Option.bind_eq_some_iff.1 hs
  exact (hk a r b s hs).trans (h a r hx)

theorem map {f : α × Text → β × Text} (h : Leaves x t) (hf : ∀ a r, (f (a, r)).2 = r) :
    Leaves (x.map f) t := by
  intro b s hs
  obtain ⟨⟨a, r⟩, hx, hs⟩ := Option.map_eq_some_iff.1 hs
  have hr := hf a r
  rw [hs] at hr
  rw [show s = r from hr]
  exact h a r hx

theorem behind {y : Option Text} {k : Text → Option (β × Text)}
    (h : ∀ r, y = Option.some r → r <:+ t) (hk : ∀ r, Leaves (k r) r) :
    Leaves (y.bind k) t := by
  intro b s hs
  obtain ⟨r, hy, hs⟩ := Option.bind_eq_some_iff.1 hs
  exact (hk r b s hs).trans (h r hy)

end Leaves

theorem suffix_of_after? (h : after? word t = some r) : r <:+ t := by
  rw [after?_eq_some.1 h]
  exact List.suffix_append _ _

theorem leaves_readDigit? (t : Text) : Leaves (readDigit? t) t := by
  cases t with
  | nil => exact .none
  | cons c rest => exact (Leaves.pair _ rest).mono (List.suffix_cons c rest)

theorem leaves_readUnit? (t : Text) : Leaves (readUnit? t) t := by
  rw [readUnit?_eq]
  exact (leaves_readDigit? t).bind fun _ r => (leaves_readDigit? r).bind fun _ r =>
    (leaves_readDigit? r).bind fun _ r => (leaves_readDigit? r).map fun _ _ => rfl

theorem leaves_unit? (high : Nat) (t : Text) : Leaves (unit? high t) t := by
  rw [unit?]
  split
  · refine .behind (fun _ => suffix_of_after?) fun rest => (leaves_readUnit? rest).bind fun low r => ?_
    simp only
    split
    · exact .some (List.suffix_refl _)
    · exact .none
  · split
    · exact .none
    · exact .some (List.suffix_refl _)

theorem leaves_readChar? (c : Char) (t : Text) : Leaves (readChar? c t) t := by
  rw [readChar?]
  split
  · cases t with
    | nil => exact .none
    | cons d t =>
      rw [readEscape?]
      refine Leaves.mono ?_ (List.suffix_cons d t)
      split
      · rw [readEscaped?_eq]
        exact (leaves_readUnit? t).bind fun high r => leaves_unit? high r
      · exact .pair _ _
  · split
    · exact .none
    · exact .some (List.suffix_refl _)

theorem leaves_readText? (fuel : Nat) (t : Text) : Leaves (readText? fuel t) t := by
  induction fuel generalizing t with
  | zero => exact .none
  | succ fuel ih =>
    cases t with
    | nil => exact .none
    | cons c rest =>
      rw [readText?_cons]
      refine Leaves.mono ?_ (List.suffix_cons c rest)
      split
      · exact .some (List.suffix_refl _)
      · exact (leaves_readChar? c rest).bind fun _ r => (ih r).map fun _ _ => rfl

theorem leaves_readDigits? (t : Text) : Leaves (readDigits? t) t := by
  rw [readDigits?]
  split
  · exact .none
  · exact .some (List.dropWhile_suffix _)

theorem leaves_readFraction? (t : Text) : Leaves (readFraction? t) t := by
  cases t with
  | nil => exact .some (List.suffix_refl _)
  | cons c rest =>
    rw [readFraction?_cons]
    split
    · exact ((leaves_readDigits? rest).map fun _ _ => rfl).mono (List.suffix_cons c rest)
    · exact .some (List.suffix_refl _)

theorem leaves_readSigned? (t : Text) : Leaves (readSigned? t) t := by
  cases t with
  | nil => exact .none
  | cons c rest =>
    rw [readSigned?]
    split
    · exact ((leaves_readDigits? rest).map fun _ _ => rfl).mono (List.suffix_cons c rest)
    · refine Leaves.map (.mono (leaves_readDigits? _) ?_) fun _ _ => rfl
      split
      · exact List.suffix_cons c rest
      · exact List.suffix_refl _

theorem leaves_readExponent? (t : Text) : Leaves (readExponent? t) t := by
  cases t with
  | nil => exact .some (List.suffix_refl _)
  | cons c rest =>
    rw [readExponent?_cons]
    split
    · exact ((leaves_readSigned? rest).map fun _ _ => rfl).mono (List.suffix_cons c rest)
    · exact .some (List.suffix_refl _)

theorem leaves_readNumber? (negative : Bool) (t : Text) : Leaves (readNumber? negative t) t := by
  rw [readNumber?_eq]
  exact (leaves_readDigits? t).bind fun _ r => (leaves_readFraction? r).bind fun _ r =>
    (leaves_readExponent? r).bind fun _ r => .pair _ r

theorem leaves_after? {α : Type} (word : Text) (a : α) (t : Text) :
    Leaves ((after? word t).map fun rest => (a, rest)) t := by
  rw [Option.map_eq_bind]
  exact .behind (fun _ => suffix_of_after?) fun _ => .some (List.suffix_refl _)

theorem skipBlanks_suffix (t : Text) : skipBlanks t <:+ t := List.dropWhile_suffix _

theorem suffix_behind_mark? (h : mark? c t = some r) : r <:+ t :=
  (List.suffix_cons c r).trans (suffix_of_mark? h)

theorem leaves_readInside? {close : Char} {make : List α → Json}
    {read : Text → Option (List α × Text)} (hread : ∀ t, Leaves (read t) t) (t : Text) :
    Leaves (readInside? close make read t) t := by
  rw [readInside?]
  split
  · rename_i hclose
    exact .some (suffix_behind_mark? hclose)
  · exact ((hread _).map fun _ _ => rfl).mono (skipBlanks_suffix t)

theorem leaves_readMore? {close : Char} {read : Text → Option (List α × Text)}
    (hread : ∀ t, Leaves (read t) t) (a : α) (t : Text) : Leaves (readMore? close read a t) t := by
  rw [readMore?]
  split
  · rename_i hcomma
    exact ((hread _).map fun _ _ => rfl).mono (suffix_behind_mark? hcomma)
  · rw [Option.map_eq_bind]
    exact .behind (fun _ => suffix_behind_mark?) fun _ => .some (List.suffix_refl _)

theorem leaves_read? (fuel : Nat) : (∀ t, Leaves (read? fuel t) t) ∧
    (∀ t, Leaves (readItems? fuel t) t) ∧ ∀ t, Leaves (readFields? fuel t) t := by
  induction fuel with
  | zero => exact ⟨fun _ => .none, fun _ => .none, fun _ => .none⟩
  | succ fuel ih =>
    obtain ⟨hvalue, hitems, hfields⟩ := ih
    refine ⟨fun t => ?_, fun t => ?_, fun t => ?_⟩
    · rw [read?_succ]
      split
      · rename_i c rest heq
        have hrest : rest <:+ c :: rest := List.suffix_cons c rest
        refine .mono ?_ (heq ▸ skipBlanks_suffix t)
        rw [readFrom?]
        split_ifs
        · exact (leaves_after? _ _ rest).mono hrest
        · exact (leaves_after? _ _ rest).mono hrest
        · exact (leaves_after? _ _ rest).mono hrest
        · exact ((leaves_readText? _ rest).map fun _ _ => rfl).mono hrest
        · exact (leaves_readInside? hitems rest).mono hrest
        · exact (leaves_readInside? hfields rest).mono hrest
        · exact (leaves_readNumber? _ rest).mono hrest
        · exact leaves_readNumber? _ _
      · exact .none
    · rw [readItems?_succ]
      exact (hvalue t).bind fun _ r => leaves_readMore? hitems _ r
    · rw [readFields?_succ]
      exact .behind (fun _ => suffix_behind_mark?) fun r => (leaves_readText? _ r).bind fun _ r =>
        .behind (fun _ => suffix_behind_mark?) fun r => (hvalue r).bind fun _ r =>
          leaves_readMore? hfields _ r

/-! ## Fuel -/

/-- What the first reads, the second reads too. -/
def Kept (x y : Option α) : Prop := ∀ a, x = some a → y = some a

namespace Kept

variable {β : Type}

theorem refl (x : Option α) : Kept x x := fun _ h => h

theorem none (y : Option α) : Kept none y := by rintro _ ⟨⟩

theorem map {x y : Option α} (h : Kept x y) (f : α → β) : Kept (x.map f) (y.map f) := by
  intro b hb
  obtain ⟨a, hx, rfl⟩ := Option.map_eq_some_iff.1 hb
  rw [h a hx]
  rfl

/-- What is read next is read of an end of the text. -/
theorem bind {x y : Option (α × Text)} {k k' : α × Text → Option β} (h : Kept x y)
    (hx : Leaves x t) (hk : ∀ a r, r <:+ t → Kept (k (a, r)) (k' (a, r))) :
    Kept (x.bind k) (y.bind k') := by
  intro b hb
  obtain ⟨⟨a, r⟩, heq, hb⟩ := Option.bind_eq_some_iff.1 hb
  rw [h _ heq]
  exact hk a r (hx a r heq) b hb

theorem behind {x : Option Text} {k k' : Text → Option β}
    (hk : ∀ r, x = some r → Kept (k r) (k' r)) : Kept (x.bind k) (x.bind k') := by
  intro b hb
  obtain ⟨r, heq, hb⟩ := Option.bind_eq_some_iff.1 hb
  rw [heq]
  exact hk r heq b hb

end Kept

variable {fuel fuel' : Nat}

theorem kept_readText? (h : t.length ≤ fuel') : Kept (readText? fuel t) (readText? fuel' t) := by
  induction fuel generalizing t fuel' with
  | zero => exact .none _
  | succ fuel ih =>
    cases t with
    | nil => exact .none _
    | cons c rest =>
      obtain ⟨fuel', rfl⟩ : ∃ n, fuel' = n + 1 := ⟨fuel' - 1, by simp at h; omega⟩
      rw [readText?_cons, readText?_cons]
      split
      · exact .refl _
      · refine (Kept.refl _).bind (leaves_readChar? c rest) fun _ r hr => .map (ih ?_) _
        have hlength := hr.length_le
        simp only [List.length_cons] at h
        omega

theorem length_of_mark? (h : mark? c t = some r) : r.length < t.length :=
  (suffix_of_mark? h).length_le

theorem kept_readInside? {close : Char} {make : List α → Json}
    {read read' : Text → Option (List α × Text)}
    (h : ∀ s, s.length ≤ t.length → Kept (read s) (read' s)) :
    Kept (readInside? close make read t) (readInside? close make read' t) := by
  rw [readInside?, readInside?]
  split
  · exact .refl _
  · exact (h _ (skipBlanks_suffix t).length_le).map _

theorem kept_readMore? {close : Char} {read read' : Text → Option (List α × Text)} {a : α}
    (h : ∀ s, s.length < t.length → Kept (read s) (read' s)) :
    Kept (readMore? close read a t) (readMore? close read' a t) := by
  rw [readMore?, readMore?]
  split
  · rename_i hcomma
    exact (h _ (length_of_mark? hcomma)).map _
  · exact .refl _

/-- What is read with some fuel is read with fuel that is enough for the length of the text. -/
theorem kept_read? (fuel : Nat) :
    (∀ t fuel', 2 * t.length + 1 ≤ fuel' → Kept (read? fuel t) (read? fuel' t)) ∧
    (∀ t fuel', 2 * t.length + 2 ≤ fuel' → Kept (readItems? fuel t) (readItems? fuel' t)) ∧
    ∀ t fuel', 2 * t.length + 2 ≤ fuel' → Kept (readFields? fuel t) (readFields? fuel' t) := by
  induction fuel with
  | zero => exact ⟨fun _ _ _ => .none _, fun _ _ _ => .none _, fun _ _ _ => .none _⟩
  | succ fuel ih =>
    obtain ⟨hvalue, hitems, hfields⟩ := ih
    obtain ⟨lvalue, litems, lfields⟩ := leaves_read? fuel
    refine ⟨fun t fuel' h => ?_, fun t fuel' h => ?_, fun t fuel' h => ?_⟩
    all_goals obtain ⟨fuel', rfl⟩ : ∃ n, fuel' = n + 1 := ⟨fuel' - 1, by omega⟩
    · rw [read?_succ, read?_succ]
      split
      · rename_i c rest heq
        have hlength : rest.length < t.length := (heq ▸ skipBlanks_suffix t).length_le
        rw [readFrom?, readFrom?]
        split_ifs
        · exact .refl _
        · exact .refl _
        · exact .refl _
        · exact (kept_readText? (by omega)).map _
        · exact kept_readInside? fun s hs => hitems s fuel' (by omega)
        · exact kept_readInside? fun s hs => hfields s fuel' (by omega)
        · exact .refl _
        · exact .refl _
      · exact .refl _
    · rw [readItems?_succ, readItems?_succ]
      refine (hvalue t fuel' (by omega)).bind (lvalue t) fun item r hr => ?_
      refine kept_readMore? fun s hs => ?_
      have hlength := hr.length_le
      exact hitems s fuel' (by omega)
    · rw [readFields?_succ, readFields?_succ]
      refine .behind fun r hr => ?_
      have hquote := length_of_mark? hr
      refine (kept_readText? (by omega)).bind (leaves_readText? _ r) fun key r hr => ?_
      refine .behind fun s hs => ?_
      have hkey := hr.length_le
      have hcolon := length_of_mark? hs
      refine (hvalue s fuel' (by omega)).bind (lvalue s) fun value u hu => ?_
      refine kept_readMore? fun s hs => ?_
      have hlength := hu.length_le
      exact hfields s fuel' (by omega)

/-- A text is read the same with all fuel that is enough for it. -/
theorem parse?_eq {fuel : Nat} (h : 2 * t.length + 1 ≤ fuel) : parse? t =
    (read? fuel t).bind fun (v, rest) => if skipBlanks rest = [] then some v else none := by
  have hread : read? (2 * t.length + 2) t = read? fuel t := by
    cases hread : read? (2 * t.length + 2) t with
    | some x => exact ((kept_read? _).1 t fuel h x hread).symm
    | none =>
      cases hfuel : read? fuel t with
      | none => rfl
      | some x =>
        have hx := (kept_read? fuel).1 t (2 * t.length + 2) (by omega) x hfuel
        rw [hread] at hx
        cases hx
  rw [parse?, hread]
  cases read? fuel t <;> rfl

end Json

end RichContent
