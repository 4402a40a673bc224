/-
The scan of a start tag, byte by byte.

The scan has a place in the text and goes on from it in rounds
(`Attribute.round?`): it passes over bytes of one class after another, and cuts
names and values out between the places where it has come to a stop. A byte of a
class is a character of it or none, so each of these places is a boundary
(`Attribute.exists_round`), no cut fails, and what the rounds read is what the
scan by characters reads (`Attribute.attributesFrom?_eq`). A round ends farther
on than it begins, wherever that is (`Attribute.lt_of_round?`).
-/
import RichContent.Proofs.Markup.StartTag
import RichContent.Proofs.Text.Codes
import RichContent.Proofs.Text.CutDecoding

namespace RichContent

open Text

namespace Attribute

/-! ## Rounds -/

/-- The value between quotes that begins at a place, and the place behind it: behind the quote that
closes it, or the end of the text if there is none. -/
def quotedAt? (quote : Char) (t : Text) (start : Nat) : Option (Text × Nat) :=
  (behind? start t).bind fun body =>
    let stop := (placeOf? (· == quote) body).elim t.utf8Size (start + ·)
    (cut? start stop t).bind fun v =>
      (decode? v).map fun value => (value, min (stop + 1) t.utf8Size)

/-- The value that begins at a place, and the place behind it. -/
def valueAt? (t : Text) (pos : Nat) : Option (Text × Nat) :=
  match (codes t)[pos]? with
  | none => some ([], pos)
  | some c =>
    if c = '"' ∨ c = '\'' then quotedAt? c t (pos + 1)
    else
      let stop := skip (fun c => !isBlank c) (codes t) pos
      (cut? pos stop t).bind fun v => (decode? v).map fun value => (value, stop)

/-- How a round comes out. -/
inductive Round where
  /-- There is nothing left. -/
  | done
  /-- What begins no name is passed over; the next round begins behind it. -/
  | passed (next : Nat)
  /-- An attribute is read; the next round begins behind it. -/
  | read (next : Nat) (a : Attribute)

/-- Where the next round begins. -/
def Round.next? : Round → Option Nat
  | done => none
  | passed next => some next
  | read next _ => some next

/-- The value behind a name, and the place behind it; without an `=` there is none, and the place is
that behind the name. -/
def afterNameAt? (t : Text) (stop : Nat) : Option (Option Text × Nat) :=
  let behind := skip isBlank (codes t) stop
  if (codes t)[behind]? = some '=' then
    (valueAt? t (skip isBlank (codes t) (behind + 1))).map fun x => (some x.1, x.2)
  else some (none, stop)

/-- A round from where a name should begin. -/
def nameAt? (t : Text) (start : Nat) : Option Round :=
  if t.utf8Size ≤ start then some .done
  else
    let stop := skip isNameChar (codes t) start
    if stop = start then some (.passed (start + 1))
    else
      (cut? start stop t).bind fun name =>
        (afterNameAt? t stop).map fun x => .read x.2 ⟨lower name, x.1⟩

/-- A round. -/
def round? (t : Text) (pos : Nat) : Option Round := nameAt? t (skip isGap (codes t) pos)

section

variable {t rest : Text} {pos start next : Nat} {value : Text} {r : Round}

theorem le_of_quotedAt? {quote : Char} (h : quotedAt? quote t start = some (value, next)) :
    start ≤ next := by
  obtain ⟨body, hbody, hvalue⟩ := Option.bind_eq_some_iff.1 h
  obtain ⟨v, -, hdecoded⟩ := Option.bind_eq_some_iff.1 hvalue
  obtain ⟨_, -, heq⟩ := Option.map_eq_some_iff.1 hdecoded
  cases heq
  obtain ⟨front, rfl, rfl⟩ := behind?_eq_some.1 hbody
  rw [utf8Size_append]
  cases placeOf? (· == quote) body with
  | none => simp only [Option.elim_none]; omega
  | some i => simp only [Option.elim_some]; omega

theorem le_of_valueAt? (h : valueAt? t pos = some (value, next)) : pos ≤ next := by
  rw [valueAt?] at h
  split at h
  · cases h
    exact Nat.le_refl _
  · split at h
    · exact Nat.le_of_succ_le (le_of_quotedAt? h)
    · obtain ⟨v, -, hdecoded⟩ := Option.bind_eq_some_iff.1 h
      obtain ⟨_, -, heq⟩ := Option.map_eq_some_iff.1 hdecoded
      cases heq
      exact le_skip _ _ _

theorem le_of_afterNameAt? {value? : Option Text} (h : afterNameAt? t start = some (value?, next)) :
    start ≤ next := by
  have hbehind := le_skip isBlank (codes t) start
  have hbegin := le_skip isBlank (codes t) (skip isBlank (codes t) start + 1)
  rw [afterNameAt?] at h
  split at h
  · obtain ⟨⟨v, n⟩, hvalue, heq⟩ := Option.map_eq_some_iff.1 h
    cases heq
    have hend := le_of_valueAt? hvalue
    omega
  · cases h
    exact Nat.le_refl _

theorem lt_of_nameAt? (h : nameAt? t start = some r) (hnext : r.next? = some next) :
    start < next ∧ start < t.utf8Size := by
  have hstop := le_skip isNameChar (codes t) start
  rw [nameAt?] at h
  dsimp only at h
  split at h
  · cases h
    cases hnext
  · rename_i hlt
    refine ⟨?_, Nat.not_le.1 hlt⟩
    split at h
    · cases h
      cases hnext
      exact Nat.lt_succ_self start
    · rename_i hne
      obtain ⟨name, -, hread⟩ := Option.bind_eq_some_iff.1 h
      obtain ⟨⟨value, n⟩, hafter, heq⟩ := Option.map_eq_some_iff.1 hread
      cases heq
      cases hnext
      have hle := le_of_afterNameAt? hafter
      omega

/-- **Every round ends farther on than it has begun**, and begins within the text. -/
theorem lt_of_round? (h : round? t pos = some r) (hnext : r.next? = some next) :
    pos < next ∧ pos < t.utf8Size := by
  have hskip := le_skip isGap (codes t) pos
  have hlt := lt_of_nameAt? h hnext
  omega

end

/-! ## Boundaries -/

theorem uniform_isGap : Uniform isGap := Uniform.isBlank.or (.beq (d := '/') (by decide))

theorem uniform_isNameChar : Uniform isNameChar :=
  ((Uniform.isBlank.not.and (Uniform.beq (d := '/') (by decide)).not).and
    (Uniform.beq (d := '=') (by decide)).not).and (Uniform.beq (d := '>') (by decide)).not

/-- A value between quotes is read from behind the first one, and what is behind it begins with a
character. -/
theorem quotedAt?_append (quote : Char) (hquote : quote.toNat < 128) (front rest : Text) :
    ∃ next, quotedAt? quote (front ++ rest) front.utf8Size =
        some (decode (rest.takeWhile (· != quote)), next) ∧
      behind? next (front ++ rest) = some ((rest.dropWhile (· != quote)).drop 1) := by
  rw [quotedAt?, behind?_append, Option.bind_some]
  rcases forall_or_exists_first (· == quote) rest with hno | ⟨v, e, after, rfl, hv, he⟩
  · -- there is no other quote
    have hall : ∀ c ∈ rest, (c != quote) = true := fun c hc => by simp [bne, hno c hc]
    have hcut : cut? front.utf8Size (front ++ rest).utf8Size (front ++ rest) = some rest := by
      simpa using cut?_append front rest []
    rw [placeOf?_eq_none hno, List.takeWhile_eq_self_iff.2 hall, List.dropWhile_eq_nil_iff.2 hall]
    simp only [Option.elim_none, hcut, Option.bind_some, decode?_eq, Option.map_some]
    refine ⟨_, rfl, ?_⟩
    rw [Nat.min_eq_right (Nat.le_succ _)]
    simpa using behind?_append (front ++ rest) []
  · obtain rfl := beq_iff_eq.1 he
    have hall : ∀ c ∈ v, (c != e) = true := fun c hc => by simp [bne, hv c hc]
    have hcut := cut?_append front v (e :: after)
    rw [List.append_assoc, utf8Size_append] at hcut
    have hnext : min (front.utf8Size + utf8Size v + 1) (front ++ (v ++ e :: after)).utf8Size =
        (front ++ (v ++ [e])).utf8Size := by
      simp only [utf8Size_append, utf8Size_cons, utf8Size_nil, utf8Size_ascii hquote]
      omega
    have hbehind := behind?_append (front ++ (v ++ [e])) after
    simp only [List.append_assoc, List.singleton_append] at hbehind
    rw [placeOf?_append hv he, List.takeWhile_append_of_pos hall, List.dropWhile_append_of_pos hall]
    simp only [Option.elim_some, hcut, Option.bind_some, decode?_eq, Option.map_some, hnext]
    exact ⟨_, by rw [List.takeWhile_cons_of_neg (by simp), List.append_nil], by simpa using hbehind⟩

/-- A value is read where a character begins, and so does what is behind it. -/
theorem valueAt?_append (front rest : Text) :
    ∃ next, valueAt? (front ++ rest) front.utf8Size = some ((scanValue rest).1, next) ∧
      behind? next (front ++ rest) = some (scanValue rest).2 := by
  cases rest with
  | nil =>
    rw [List.append_nil, valueAt?, getElem?_codes_end]
    refine ⟨front.utf8Size, rfl, ?_⟩
    simpa [scanValue] using behind?_append front []
  | cons c rest =>
    obtain ⟨d, hd, hget⟩ := getElem?_codes front c rest
    have hquote : (d = '"' ∨ d = '\'') ↔ (c = '"' ∨ c = '\'') :=
      or_congr (eq_iff_of_mem_codesOf (by decide) hd) (eq_iff_of_mem_codesOf (by decide) hd)
    rw [valueAt?, hget, scanValue]
    dsimp only
    simp only [hquote]
    split
    · rename_i hc
      have hascii : c.toNat < 128 := by rcases hc with rfl | rfl <;> decide
      rw [codesOf_ascii hascii, List.mem_singleton] at hd
      have hfront : front.utf8Size + 1 = (front ++ [c]).utf8Size := by
        rw [utf8Size_append, utf8Size_cons, utf8Size_ascii hascii, utf8Size_nil]
      have htext : front ++ c :: rest = (front ++ [c]) ++ rest := by simp
      rw [hd, hfront, htext]
      exact quotedAt?_append c hascii (front ++ [c]) rest
    · have hstop := skip_append Uniform.isBlank.not front (c :: rest)
      have htext : front ++ c :: rest = front ++ (c :: rest).takeWhile (fun c => !isBlank c) ++
          (c :: rest).dropWhile fun c => !isBlank c := by
        rw [List.append_assoc, List.takeWhile_append_dropWhile]
      have hcut := cut?_append front ((c :: rest).takeWhile fun c => !isBlank c)
        ((c :: rest).dropWhile fun c => !isBlank c)
      have hbehind := behind?_append (front ++ (c :: rest).takeWhile fun c => !isBlank c)
        ((c :: rest).dropWhile fun c => !isBlank c)
      rw [← htext] at hcut hbehind
      rw [hstop, hcut]
      simp only [Option.bind_some, decode?_eq, Option.map_some]
      exact ⟨_, rfl, hbehind⟩

/-- What begins no name is an ASCII character. -/
theorem ascii_of_isNameChar {c : Char} (h : isNameChar c = false) : c.toNat < 128 := by
  obtain ⟨b, hb⟩ := uniform_isNameChar
  refine Nat.not_le.1 fun hc => ?_
  have hother : isNameChar 'é' = b := hb 'é' (by decide)
  rw [hb c hc, ← hother] at h
  exact absurd h (by decide)

/-- What a round does where a text begins, and where that leads: the next round begins with a
character, and what is read from there on is what is left to read. -/
inductive Round.Reads (t rest : Text) : Round → Prop
  | done : rest.dropWhile isGap = [] → Reads t rest .done
  | passed {c : Char} {after : Text} {next : Nat} :
    rest.dropWhile isGap = c :: after → isNameChar c = false → behind? next t = some after →
    Reads t rest (.passed next)
  | read {c : Char} {more after : Text} {next : Nat} :
    rest.dropWhile isGap = c :: more → isNameChar c = true → behind? next t = some after →
    scan after = scan (scanAfterName (more.dropWhile isNameChar)).2 →
    Reads t rest (.read next ⟨lower (c :: more.takeWhile isNameChar),
      (scanAfterName (more.dropWhile isNameChar)).1⟩)

/-- Blanks in front of attributes do not matter. -/
theorem scan_dropWhile_isBlank (t : Text) : scan (t.dropWhile isBlank) = scan t := by
  have hgap : (t.dropWhile isBlank).dropWhile isGap = t.dropWhile isGap := by
    induction t with
    | nil => rfl
    | cons c t ih =>
      cases hc : isBlank c with
      | true =>
        have hg : isGap c = true := by simp [isGap, hc]
        rw [List.dropWhile_cons_of_pos hc, List.dropWhile_cons_of_pos hg, ih]
      | false => rw [List.dropWhile_cons_of_neg (by simp [hc])]
  cases h : t.dropWhile isGap with
  | nil => rw [scan_of_nil h, scan_of_nil (hgap.trans h)]
  | cons c rest => rw [scan_of_cons h, scan_of_cons (hgap.trans h)]

/-- Behind an `=` and blanks a value is read. -/
theorem exists_valueBehind (front more : Text) :
    ∃ next, valueAt? (front ++ '=' :: more)
          (skip isBlank (codes (front ++ '=' :: more)) (front.utf8Size + 1)) =
        some ((scanValue (more.dropWhile isBlank)).1, next) ∧
      behind? next (front ++ '=' :: more) = some (scanValue (more.dropWhile isBlank)).2 := by
  have hequals : front.utf8Size + 1 = (front ++ ['=']).utf8Size :=
    (utf8Size_append front ['=']).symm
  have hmore : front ++ '=' :: more = front ++ ['='] ++ more := by simp
  obtain ⟨next, hread, hbehind⟩ := valueAt?_append (front ++ ['='] ++ more.takeWhile isBlank)
    (more.dropWhile isBlank)
  rw [List.append_assoc (front ++ ['=']), List.takeWhile_append_dropWhile] at hread hbehind
  rw [hequals, hmore, skip_append Uniform.isBlank]
  exact ⟨next, hread, hbehind⟩

theorem exists_afterNameAt? (front rest : Text) :
    ∃ next after, afterNameAt? (front ++ rest) front.utf8Size =
        some ((scanAfterName rest).1, next) ∧
      behind? next (front ++ rest) = some after ∧ scan after = scan (scanAfterName rest).2 := by
  have htext : front ++ rest = front ++ rest.takeWhile isBlank ++ rest.dropWhile isBlank := by
    rw [List.append_assoc, List.takeWhile_append_dropWhile]
  rw [afterNameAt?, skip_append Uniform.isBlank]
  cases hdrop : rest.dropWhile isBlank with
  | nil =>
    have hno : (codes (front ++ rest))[(front ++ rest.takeWhile isBlank).utf8Size]? ≠ some '=' := by
      rw [htext, hdrop, List.append_nil, getElem?_codes_end]
      simp
    rw [if_neg hno, scanAfterName, hdrop]
    refine ⟨_, rest, rfl, behind?_append front rest, ?_⟩
    rw [← scan_dropWhile_isBlank rest, hdrop]
  | cons c more =>
    rw [hdrop] at htext
    obtain ⟨d, hd, hget⟩ := getElem?_codes (front ++ rest.takeWhile isBlank) c more
    rw [← htext] at hget
    have hequals : d = '=' ↔ c = '=' := eq_iff_of_mem_codesOf (by decide) hd
    by_cases hc : c = '='
    · subst hc
      have hscan : scanAfterName rest = (some (scanValue (more.dropWhile isBlank)).1,
          (scanValue (more.dropWhile isBlank)).2) := by
        rw [scanAfterName, hdrop]
        rfl
      obtain ⟨next, hread, hbehind⟩ := exists_valueBehind (front ++ rest.takeWhile isBlank) more
      rw [← htext] at hread hbehind
      rw [hequals.2 rfl] at hget
      rw [if_pos hget, hread, hscan]
      exact ⟨next, _, rfl, hbehind, rfl⟩
    · have hno : (codes (front ++ rest))[(front ++ rest.takeWhile isBlank).utf8Size]? ≠ some '=' := by
        rw [hget]
        exact fun heq => hc (hequals.1 (Option.some.inj heq))
      have hscan : scanAfterName rest = (none, c :: more) := by
        rw [scanAfterName, hdrop]
        split
        · rename_i heq
          exact absurd (List.cons.inj heq).1 hc
        · rfl
      rw [if_neg hno, hscan]
      refine ⟨_, rest, rfl, behind?_append front rest, ?_⟩
      rw [← scan_dropWhile_isBlank rest, hdrop]

/-- **A round from a boundary does not fail, and ends at a boundary.** -/
theorem exists_round {t rest : Text} {pos : Nat} (h : behind? pos t = some rest) :
    ∃ r, round? t pos = some r ∧ r.Reads t rest := by
  obtain ⟨front, rfl, rfl⟩ := behind?_eq_some.1 h
  have htext : front ++ rest = front ++ rest.takeWhile isGap ++ rest.dropWhile isGap := by
    rw [List.append_assoc, List.takeWhile_append_dropWhile]
  rw [round?, skip_append uniform_isGap]
  generalize hfront : front ++ rest.takeWhile isGap = front' at htext
  cases hdrop : rest.dropWhile isGap with
  | nil =>
    rw [hdrop, List.append_nil] at htext
    rw [htext, nameAt?, if_pos (Nat.le_refl _)]
    exact ⟨.done, rfl, .done hdrop⟩
  | cons c more =>
    rw [hdrop] at htext
    rw [htext]
    have hlt : ¬ (front' ++ c :: more).utf8Size ≤ front'.utf8Size := by
      have hpos : 0 < c.utf8Size := c.utf8Size_pos
      rw [utf8Size_append, utf8Size_cons]
      omega
    rw [nameAt?, if_neg hlt, skip_append uniform_isNameChar]
    cases hc : isNameChar c with
    | false =>
      rw [List.takeWhile_cons_of_neg (by simp [hc]), List.append_nil, if_pos rfl]
      refine ⟨_, rfl, .passed hdrop hc (behind?_eq_some.2 ⟨front' ++ [c], by simp, ?_⟩)⟩
      rw [utf8Size_append, utf8Size_cons, utf8Size_ascii (ascii_of_isNameChar hc), utf8Size_nil]
    | true =>
      have hne : (front' ++ c :: more.takeWhile isNameChar).utf8Size ≠ front'.utf8Size := by
        have hpos : 0 < c.utf8Size := c.utf8Size_pos
        rw [utf8Size_append, utf8Size_cons]
        omega
      have hname : front' ++ c :: more = front' ++ c :: more.takeWhile isNameChar ++
          more.dropWhile isNameChar := by
        rw [List.append_assoc, List.cons_append, List.takeWhile_append_dropWhile]
      have hcut := cut?_append front' (c :: more.takeWhile isNameChar) (more.dropWhile isNameChar)
      obtain ⟨next, after, hread, hbehind, hscan⟩ := exists_afterNameAt?
        (front' ++ c :: more.takeWhile isNameChar) (more.dropWhile isNameChar)
      rw [← hname] at hcut hread hbehind
      rw [List.takeWhile_cons_of_pos hc, if_neg hne, hcut, Option.bind_some, hread]
      exact ⟨_, rfl, .read hdrop hc hbehind hscan⟩

theorem reads_of_round? {t rest : Text} {pos : Nat} {r : Round} (h : behind? pos t = some rest)
    (hround : round? t pos = some r) : r.Reads t rest := by
  obtain ⟨r', hr', hreads⟩ := exists_round h
  rw [hround] at hr'
  cases hr'
  exact hreads

/-- What is read in the rounds from a place on. -/
def attributesFrom? (t : Text) (pos : Nat) : Option (List Attribute) :=
  match _h : round? t pos with
  | none => none
  | some .done => some []
  | some (.passed next) => attributesFrom? t next
  | some (.read next a) => (attributesFrom? t next).map (a :: ·)
termination_by t.utf8Size - pos
decreasing_by
  all_goals
    have hlt := lt_of_round? _h rfl
    omega

theorem Round.Reads.exists_behind {t rest : Text} {r : Round} {next : Nat} (h : r.Reads t rest)
    (hnext : r.next? = some next) : ∃ after, behind? next t = some after := by
  cases h with
  | done => cases hnext
  | passed _ _ hbehind | read _ _ hbehind _ =>
    cases hnext
    exact ⟨_, hbehind⟩

/-- The rounds read what the scan by characters reads. -/
theorem attributesFrom?_eq {t rest : Text} {pos : Nat} (h : behind? pos t = some rest) :
    attributesFrom? t pos = some (scan rest) := by
  fun_induction attributesFrom? t pos generalizing rest with
  | case1 pos hround =>
    obtain ⟨r, hr, -⟩ := exists_round h
    rw [hround] at hr
    cases hr
  | case2 pos hround =>
    cases reads_of_round? h hround with
    | done hdrop => rw [scan_of_nil hdrop]
  | case3 pos next hround ih =>
    cases reads_of_round? h hround with
    | passed hdrop hc hbehind =>
      rw [ih hbehind, scan_of_cons hdrop, if_neg (by simp [hc])]
  | case4 pos next a hround ih =>
    cases reads_of_round? h hround with
    | read hdrop hc hbehind hscan =>
      rw [ih hbehind, scan_of_cons hdrop, if_pos hc, hscan]
      rfl

/-- The attributes of a text; of each name the first one is kept. -/
def attributes? (t : Text) : Option (List Attribute) := (attributesFrom? t 0).map (keepFirst [])

theorem attributes?_eq (t : Text) : attributes? t = some (keepFirst [] (scan t)) := by
  have hall : attributesFrom? t 0 = some (scan t) := attributesFrom?_eq (behind?_append [] t)
  rw [attributes?, hall]
  rfl

end Attribute

/-! ## Tags -/

namespace StartTag

/-- Reads a start tag, which is cut in two behind its name. -/
def parse? (t : Text) : Option StartTag :=
  let inner := interior t
  let nameSize := (placeOf? (fun c => isBlank c || c == '/') inner).getD inner.utf8Size
  (split? nameSize inner).bind fun cut =>
    (Attribute.attributes? cut.2).map fun attributes =>
      { name := lower cut.1
        attributes
        selfClosing := (trimEnd cut.2).getLast? == some '/' }

/-- **No cut fails when a start tag is read.** -/
theorem parse?_eq (t : Text) : parse? t = some (parse t) := by
  rw [parse?, split?_placeOf?, Option.bind_some, Attribute.attributes?_eq]
  rfl

end StartTag

end RichContent
