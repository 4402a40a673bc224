/-
The slash that closes a tag.

A tag closes itself if a slash is the last thing in it, white space apart. The
attributes are read without regard to that: where a value is to come, or is
being read, the slash belongs to the value, and it still closes the element.
So the slash can be left out without a change exactly where it stands between
attributes or right behind a name (`Place.Sheds`), the white space behind it
being blanks of markup where it is all that ends a name (`slash_sheds`).
-/
import RichContent.Proofs.Markup.TagQuotes

namespace RichContent

open Text

/-! ## White space -/

namespace Text

theorem isReferenceChar_of_isWhiteSpace {c : Char} (h : isWhiteSpace c = true) :
    isReferenceChar c = false := by
  have hhash : c ≠ '#' := ne_of_isWhiteSpace (by decide) h
  have hplus : c ≠ '+' := ne_of_isWhiteSpace (by decide) h
  simp [isReferenceChar, isAlphanum_of_isWhiteSpace h, hhash, hplus]

theorem exists_of_getLast?_trimEnd {t : Text} {c : Char} (h : (trimEnd t).getLast? = some c) :
    ∃ front behind, t = front ++ c :: behind ∧ ∀ d ∈ behind, isWhiteSpace d = true := by
  rw [getLast?_trimEnd] at h
  have hsplit := List.takeWhile_append_dropWhile (p := isWhiteSpace) (l := t.reverse)
  cases hdrop : t.reverse.dropWhile isWhiteSpace with
  | nil =>
    rw [hdrop] at h
    cases h
  | cons d rest =>
    rw [hdrop] at h hsplit
    obtain rfl : d = c := by simpa using h
    refine ⟨rest.reverse, (t.reverse.takeWhile isWhiteSpace).reverse, ?_, ?_⟩
    · simpa using (congrArg List.reverse hsplit).symm
    · intro e he
      exact List.mem_takeWhile_imp (List.mem_reverse.1 he)

theorem dropWhile_congr {p q : Char → Bool} {t : Text} (h : ∀ c ∈ t, p c = q c) :
    t.dropWhile p = t.dropWhile q := by
  induction t with
  | nil => rfl
  | cons c t ih =>
    obtain ⟨hc, ht⟩ := List.forall_mem_cons.1 h
    rw [List.dropWhile_cons, List.dropWhile_cons, hc, ih ht]

section

variable {w : Text} (hw : ∀ c ∈ w, isWhiteSpace c = true)
include hw

theorem decode_append_whiteSpace (v : Text) : decode (v ++ w) = decode v ++ w := by
  have hself : decode w = w := decode_eq_self fun c hc => ne_of_isWhiteSpace (by decide) (hw c hc)
  cases w with
  | nil => simp
  | cons c w =>
    have hc := hw c List.mem_cons_self
    rw [decode_append_of_stop (isReferenceChar_of_isWhiteSpace hc) (ne_of_isWhiteSpace (by decide) hc),
      hself]

theorem decode_append_slash (v : Text) : decode (v ++ '/' :: w) = decode v ++ '/' :: w := by
  have hself : decode w = w := decode_eq_self fun c hc => ne_of_isWhiteSpace (by decide) (hw c hc)
  rw [decode_append_of_stop (by decide) (by decide), decode_cons_of_ne (by decide), hself]

end

end Text

/-! ## The slash at each place -/

namespace Place

/-- A slash at this place, with white space behind it up to the end of the tag, is nothing but what
closes the tag. Between attributes it is passed over, a name it ends as blanks do, and of a value it
is a part. -/
def Sheds (behind : Text) : Place → Prop
  | gap | behindName _ => True
  | inTagName | inName _ => ∀ c, behind.head? = some c → isBlank c = true
  | beforeValue _ | inQuoted .. | inUnquoted .. => False

theorem after_ne_inTagName {p : Place} (hp : p ≠ inTagName) (t : Text) : p.after t ≠ inTagName := by
  induction t generalizing p with
  | nil => exact hp
  | cons c t ih =>
    apply ih
    have hgap : nextOfGap c ≠ inTagName := by
      rw [nextOfGap]
      split <;> simp
    have hname : ∀ n, (nextOfName n c).2 ≠ inTagName := by
      intro n
      rw [nextOfName]
      split
      · simp
      · split
        · simp
        · exact hgap
    cases p with
    | inTagName => exact absurd rfl hp
    | gap => exact hgap
    | behindName n => exact hname n
    | inName n =>
      rw [next]
      split
      · simp
      · exact hname n
    | beforeValue n =>
      rw [next]
      split
      · simp
      · split <;> simp
    | inQuoted n q v | inUnquoted n v =>
      rw [next]
      split <;> simp

/-- The name of the tag goes on as long as no blank and no slash comes. -/
theorem after_inTagName_iff {front : Text} :
    inTagName.after front = inTagName ↔ ∀ c ∈ front, Attribute.isGap c = false := by
  induction front with
  | nil => simp [after]
  | cons c front ih =>
    rw [after, next, List.forall_mem_cons]
    cases hc : Attribute.isGap c with
    | true => simp [after_ne_inTagName]
    | false => simpa using ih

theorem isQuote_of_after {front name v : Text} {q : Char}
    (h : inTagName.after front = inQuoted name q v) : isQuote q = true := by
  induction front using List.reverseRecOn generalizing v with
  | nil => cases h
  | append_singleton front c ih =>
    rw [after_concat] at h
    have hleads := leads_next (inTagName.after front) c
    rw [h] at hleads
    cases hleads with
    | opens _ hc _ => exact hc
    | within _ _ _ hp => exact ih hp
    | other hno => cases hno

theorem read_gap_of_isGap {c : Char} (h : Attribute.isGap c = true) (t : Text) :
    gap.read (c :: t) = gap.read t := by
  rw [read_cons, next_gap_of_isGap h, List.nil_append]

theorem read_inTagName_of_isGap {c : Char} (h : Attribute.isGap c = true) (t : Text) :
    inTagName.read (c :: t) = gap.read t := by
  rw [read_cons, next, if_pos h, List.nil_append]

/-- A slash ends a name. -/
theorem read_inName_slash (name t : Text) :
    (inName name).read ('/' :: t) = ⟨lower name, none⟩ :: gap.read t := by
  rw [read_cons]
  rfl

theorem read_behindName_slash (name t : Text) :
    (behindName name).read ('/' :: t) = ⟨lower name, none⟩ :: gap.read t := by
  rw [read_cons]
  rfl

/-- From a slash on the text up to the next blank is the value. -/
theorem read_beforeValue_slash (name t : Text) : (beforeValue name).read ('/' :: t) =
    ⟨lower name, some ('/' :: decode (t.takeWhile (!isBlank ·)))⟩ ::
      gap.read (t.dropWhile (!isBlank ·)) := by
  have hnext : (beforeValue name).next '/' = ([], inUnquoted name ['/']) := rfl
  rw [read_cons, hnext, List.nil_append, read_inUnquoted, List.singleton_append,
    decode_cons_of_ne (by decide)]

section

variable {behind : Text} (hbehind : ∀ c ∈ behind, isWhiteSpace c = true)
include hbehind

theorem isGap_eq_isBlank {c : Char} (hc : c ∈ behind) : Attribute.isGap c = isBlank c := by
  have hslash : c ≠ '/' := ne_of_isWhiteSpace (by decide) (hbehind c hc)
  simp [Attribute.isGap, hslash]

theorem isNameChar_eq {c : Char} (hc : c ∈ behind) : Attribute.isNameChar c = !isBlank c := by
  have hslash : c ≠ '/' := ne_of_isWhiteSpace (by decide) (hbehind c hc)
  have hequals : c ≠ '=' := ne_of_isWhiteSpace (by decide) (hbehind c hc)
  have hgreater : c ≠ '>' := ne_of_isWhiteSpace (by decide) (hbehind c hc)
  simp [Attribute.isNameChar, bne_iff_ne.2 hslash, bne_iff_ne.2 hequals, bne_iff_ne.2 hgreater]

/-- White space behind a name is no value. -/
theorem read_behindName_whiteSpace (name : Text) :
    (behindName name).read behind = ⟨lower name, none⟩ :: gap.read behind := by
  induction behind with
  | nil => rfl
  | cons c behind ih =>
    have hequals : c ≠ '=' := ne_of_isWhiteSpace (by decide) (hbehind c List.mem_cons_self)
    rw [read_cons, next, nextOfName]
    cases hblank : isBlank c with
    | true =>
      have hgap : Attribute.isGap c = true := by simp [Attribute.isGap, hblank]
      rw [if_pos rfl, List.nil_append, ih fun d hd => hbehind d (List.mem_cons_of_mem _ hd),
        read_gap_of_isGap hgap]
    | false =>
      rw [if_neg (by simp), if_neg hequals, read_cons gap]
      rfl

/-- White space that is not blank goes on with a name. -/
theorem read_inName_whiteSpace (name : Text) : (inName name).read behind =
    ⟨lower (name ++ behind.takeWhile Attribute.isNameChar), none⟩ ::
      gap.read (behind.dropWhile (!isBlank ·)) := by
  have hrest : ∀ c ∈ behind.dropWhile (!isBlank ·), isWhiteSpace c = true :=
    fun c hc => hbehind c ((List.dropWhile_suffix _).mem hc)
  rw [read_inName, dropWhile_congr fun c hc => isNameChar_eq hbehind hc,
    read_behindName_whiteSpace hrest]

theorem read_inName_slash_iff (name : Text) :
    (inName name).read ('/' :: behind) = (inName name).read behind ↔ (inName name).Sheds behind := by
  rw [read_inName_slash, read_inName_whiteSpace hbehind, Sheds]
  cases behind with
  | nil => simp
  | cons c behind =>
    have hc := isNameChar_eq hbehind List.mem_cons_self
    cases hblank : isBlank c with
    | true => simp [hc, hblank]
    | false => simp [hc, hblank, lower]

theorem scanValue_whiteSpace : Attribute.scanValue behind =
    (behind.takeWhile (!isBlank ·), behind.dropWhile (!isBlank ·)) := by
  have hself : decode (behind.takeWhile (!isBlank ·)) = behind.takeWhile (!isBlank ·) := by
    apply decode_eq_self
    intro c hc
    exact ne_of_isWhiteSpace (by decide) (hbehind c ((List.takeWhile_prefix _).mem hc))
  cases behind with
  | nil => rfl
  | cons c behind =>
    have hdouble : c ≠ '"' := ne_of_isWhiteSpace (by decide) (hbehind c List.mem_cons_self)
    have hsingle : c ≠ '\'' := ne_of_isWhiteSpace (by decide) (hbehind c List.mem_cons_self)
    rw [Attribute.scanValue, if_neg (by simp [hdouble, hsingle]), hself]

theorem read_beforeValue_whiteSpace (name : Text) : (beforeValue name).read behind =
    ⟨lower name, some ((behind.dropWhile isBlank).takeWhile (!isBlank ·))⟩ ::
      gap.read ((behind.dropWhile isBlank).dropWhile (!isBlank ·)) := by
  have hrest : ∀ c ∈ behind.dropWhile isBlank, isWhiteSpace c = true :=
    fun c hc => hbehind c ((List.dropWhile_suffix _).mem hc)
  rw [read_beforeValue, scanValue_whiteSpace hrest]

theorem read_beforeValue_slash_ne (name : Text) :
    (beforeValue name).read ('/' :: behind) ≠ (beforeValue name).read behind := by
  intro h
  rw [read_beforeValue_slash, read_beforeValue_whiteSpace hbehind] at h
  have hvalue := Option.some.inj (congrArg Attribute.value (List.cons.inj h).1)
  have hmem : '/' ∈ behind := by
    apply (List.dropWhile_suffix isBlank).mem
    apply (List.takeWhile_prefix (!isBlank ·)).mem
    rw [← hvalue]
    exact List.mem_cons_self
  exact ne_of_isWhiteSpace (by decide) (hbehind '/' hmem) rfl

theorem read_inQuoted_whiteSpace (name : Text) {q : Char} (hq : isQuote q = true) (v : Text) :
    (inQuoted name q v).read behind = [⟨lower name, some (decode v ++ behind)⟩] ∧
      (inQuoted name q v).read ('/' :: behind) =
        [⟨lower name, some (decode v ++ '/' :: behind)⟩] := by
  have hall : ∀ c ∈ '/' :: behind, (c != q) = true := by
    rw [List.forall_mem_cons]
    rcases eq_of_isQuote hq with rfl | rfl
    · exact ⟨by decide, fun c hc => bne_iff_ne.2 (ne_of_isWhiteSpace (by decide) (hbehind c hc))⟩
    · exact ⟨by decide, fun c hc => bne_iff_ne.2 (ne_of_isWhiteSpace (by decide) (hbehind c hc))⟩
  have hrest := (List.forall_mem_cons.1 hall).2
  constructor
  · rw [read_inQuoted, List.takeWhile_eq_self_iff.2 hrest, List.dropWhile_eq_nil_iff.2 hrest,
      decode_append_whiteSpace hbehind]
    rfl
  · rw [read_inQuoted, List.takeWhile_eq_self_iff.2 hall, List.dropWhile_eq_nil_iff.2 hall,
      decode_append_slash hbehind]
    rfl

theorem read_inUnquoted_whiteSpace (name v : Text) :
    (inUnquoted name v).read behind =
        ⟨lower name, some (decode v ++ behind.takeWhile (!isBlank ·))⟩ ::
          gap.read (behind.dropWhile (!isBlank ·)) ∧
      (inUnquoted name v).read ('/' :: behind) =
        ⟨lower name, some (decode v ++ '/' :: behind.takeWhile (!isBlank ·))⟩ ::
          gap.read (behind.dropWhile (!isBlank ·)) := by
  have hword : ∀ c ∈ behind.takeWhile (!isBlank ·), isWhiteSpace c = true :=
    fun c hc => hbehind c ((List.takeWhile_prefix _).mem hc)
  have hslash : (!isBlank '/') = true := by decide
  constructor
  · rw [read_inUnquoted, decode_append_whiteSpace hword]
  · rw [read_inUnquoted, List.takeWhile_cons, List.dropWhile_cons, if_pos hslash, if_pos hslash,
      decode_append_slash hword]

/-- Without the slash the same attributes are read where it sheds, and nowhere else. -/
theorem read_slash_iff {p : Place} (htag : p ≠ inTagName)
    (hquote : ∀ name q v, p = inQuoted name q v → isQuote q = true) :
    p.read ('/' :: behind) = p.read behind ↔ p.Sheds behind := by
  cases p with
  | inTagName => exact absurd rfl htag
  | gap =>
    have hslash : Attribute.isGap '/' = true := by decide
    simp [Sheds, read_gap_of_isGap hslash]
  | behindName name => simp [Sheds, read_behindName_slash, read_behindName_whiteSpace hbehind]
  | inName name => exact read_inName_slash_iff hbehind name
  | beforeValue name => simpa [Sheds] using read_beforeValue_slash_ne hbehind name
  | inQuoted name q v =>
    obtain ⟨hread, hslash⟩ := read_inQuoted_whiteSpace hbehind name (hquote name q v rfl) v
    simp [Sheds, hread, hslash]
  | inUnquoted name v =>
    obtain ⟨hread, hslash⟩ := read_inUnquoted_whiteSpace hbehind name v
    simp [Sheds, hread, hslash]

/-- What is left of white space behind its first word has no more attributes in it. -/
theorem length_read_gap_dropWhile :
    (gap.read (behind.dropWhile (!isBlank ·))).length ≤ (gap.read behind).length := by
  cases behind with
  | nil => exact Nat.le_refl _
  | cons c behind =>
    have hc := isNameChar_eq hbehind List.mem_cons_self
    have hrest : ∀ d ∈ behind, isWhiteSpace d = true :=
      fun d hd => hbehind d (List.mem_cons_of_mem _ hd)
    cases hblank : isBlank c with
    | true => simp [hblank]
    | false =>
      rw [hblank, Bool.not_false] at hc
      have hread : gap.read (c :: behind) = (inName [c]).read behind := by
        rw [read_cons, next, nextOfGap, if_pos hc, List.nil_append]
      rw [hread, read_inName_whiteSpace hrest, List.dropWhile_cons_of_pos (by simp [hblank])]
      simp

theorem length_read_gap_dropBlanks :
    (gap.read ((behind.dropWhile isBlank).dropWhile (!isBlank ·))).length ≤
      (gap.read (behind.dropWhile (!isBlank ·))).length := by
  cases behind with
  | nil => exact Nat.le_refl _
  | cons c rest =>
    cases hblank : isBlank c with
    | false => simp [hblank]
    | true =>
      have hword : ∀ d ∈ (c :: rest).dropWhile isBlank, isWhiteSpace d = true :=
        fun d hd => hbehind d ((List.dropWhile_suffix _).mem hd)
      have hself : (c :: rest).dropWhile (!isBlank ·) = c :: rest := by simp [hblank]
      rw [hself, read_gap (c :: rest), dropWhile_congr fun d hd => isGap_eq_isBlank hbehind hd]
      exact length_read_gap_dropWhile hword

/-- Without the slash no more attributes are read. -/
theorem length_read_le {p : Place}
    (hquote : ∀ name q v, p = inQuoted name q v → isQuote q = true) :
    (p.read behind).length ≤ (p.read ('/' :: behind)).length := by
  have hdrop := length_read_gap_dropWhile hbehind
  have hslash : Attribute.isGap '/' = true := by decide
  cases p with
  | inTagName =>
    have hgap : ∀ c ∈ behind, (!Attribute.isGap c) = !isBlank c := by
      intro c hc
      rw [isGap_eq_isBlank hbehind hc]
    rw [read_inTagName, read_inTagName_of_isGap hslash, dropWhile_congr hgap]
    exact hdrop
  | gap => rw [read_gap_of_isGap hslash]
  | behindName name => rw [read_behindName_slash, read_behindName_whiteSpace hbehind]
  | inName name =>
    rw [read_inName_slash, read_inName_whiteSpace hbehind]
    simpa using hdrop
  | beforeValue name =>
    rw [read_beforeValue_slash, read_beforeValue_whiteSpace hbehind]
    simpa using length_read_gap_dropBlanks hbehind
  | inQuoted name q v =>
    obtain ⟨hread, hslash⟩ := read_inQuoted_whiteSpace hbehind name (hquote name q v rfl) v
    rw [hread, hslash]
    exact Nat.le_refl _
  | inUnquoted name v =>
    obtain ⟨hread, hslash⟩ := read_inUnquoted_whiteSpace hbehind name v
    rw [hread, hslash]
    exact Nat.le_refl _

end

end Place

namespace StartTag

/-! ## A tag without its slash -/

theorem name_parse (inner : Text) :
    (parse ('<' :: inner ++ ['>'])).name = lower (inner.takeWhile (!Attribute.isGap ·)) := by
  rw [parse, interior_of_brackets]
  rfl

theorem attributes_parse_brackets (inner : Text) : (parse ('<' :: inner ++ ['>'])).attributes =
    Attribute.keepFirst [] (scanned inner) := by
  rw [attributes_parse, interior_of_brackets]

/-- A tag that closes itself ends, white space apart, in a slash. -/
theorem exists_slash {inner : Text} (h : (parse ('<' :: inner ++ ['>'])).selfClosing = true) :
    ∃ front behind, inner = front ++ '/' :: behind ∧ ∀ c ∈ behind, isWhiteSpace c = true := by
  rw [parse, interior_of_brackets, beq_iff_eq] at h
  obtain ⟨front, behind, heq, hbehind⟩ := exists_of_getLast?_trimEnd h
  refine ⟨inner.takeWhile (!Attribute.isGap ·) ++ front, behind, ?_, hbehind⟩
  rw [List.append_assoc, ← heq]
  exact (List.takeWhile_append_dropWhile ..).symm

/-- Without the slash between the two texts the tag has the same name and the same attributes. -/
def Expendable (front behind : Text) : Prop :=
  (parse ('<' :: (front ++ behind) ++ ['>'])).name =
      (parse ('<' :: (front ++ '/' :: behind) ++ ['>'])).name ∧
    (parse ('<' :: (front ++ behind) ++ ['>'])).attributes =
      (parse ('<' :: (front ++ '/' :: behind) ++ ['>'])).attributes

/-- The same of all attributes that are written, also of those whose name has been given before. -/
def Unread (front behind : Text) : Prop :=
  (parse ('<' :: (front ++ behind) ++ ['>'])).name =
      (parse ('<' :: (front ++ '/' :: behind) ++ ['>'])).name ∧
    scanned (front ++ behind) = scanned (front ++ '/' :: behind)

section

variable {front behind : Text} (hbehind : ∀ c ∈ behind, isWhiteSpace c = true)
include hbehind

/-- A slash right behind the name of the tag ends it, as blanks do and other white space does
not. -/
theorem unread_iff_of_name (hfront : Place.inTagName.after front = .inTagName) :
    Unread front behind ↔ (Place.inTagName.after front).Sheds behind := by
  have hname : ∀ c ∈ front, (!Attribute.isGap c) = true := by
    intro c hc
    simp [Place.after_inTagName_iff.1 hfront c hc]
  rw [Unread, name_parse, name_parse, List.takeWhile_append_of_pos hname,
    List.takeWhile_append_of_pos hname, scanned_eq_read, scanned_eq_read, Place.read_append,
    Place.read_append, hfront, Place.Sheds]
  have hgap : Attribute.isGap '/' = true := by decide
  cases behind with
  | nil => simp [hgap, Place.read_inTagName_of_isGap, Place.ended]
  | cons c behind =>
    have hc := Place.isGap_eq_isBlank hbehind List.mem_cons_self
    cases hblank : isBlank c with
    | true =>
      rw [hblank] at hc
      simp [hc, hgap, hblank, Place.read_inTagName_of_isGap, Place.read_gap_of_isGap]
    | false =>
      rw [hblank] at hc
      simp [hc, hgap, hblank, lower]

/-- Further on the name is over, and what counts is how the slash is read. -/
theorem unread_iff_of_attributes (hfront : Place.inTagName.after front ≠ .inTagName) :
    Unread front behind ↔ (Place.inTagName.after front).Sheds behind := by
  have hlen : (front.takeWhile (!Attribute.isGap ·)).length ≠ front.length := by
    intro hlen
    apply hfront
    rw [Place.after_inTagName_iff]
    have hself := List.takeWhile_eq_self_iff.1 ((List.takeWhile_prefix _).eq_of_length hlen)
    intro c hc
    simpa using hself c hc
  have hquote : ∀ name q v, Place.inTagName.after front = .inQuoted name q v → isQuote q = true :=
    fun _ _ _ hplace => Place.isQuote_of_after hplace
  rw [Unread, name_parse, name_parse, List.takeWhile_append, List.takeWhile_append,
    if_neg hlen, if_neg hlen, scanned_eq_read, scanned_eq_read, Place.read_append,
    Place.read_append, ← Place.read_slash_iff hbehind hfront hquote]
  simp [eq_comm]

theorem unread_iff : Unread front behind ↔ (Place.inTagName.after front).Sheds behind := by
  by_cases hfront : Place.inTagName.after front = .inTagName
  · exact unread_iff_of_name hbehind hfront
  · exact unread_iff_of_attributes hbehind hfront

theorem length_scanned_le :
    (scanned (front ++ behind)).length ≤ (scanned (front ++ '/' :: behind)).length := by
  have hread := Place.length_read_le hbehind (p := Place.inTagName.after front)
    fun _ _ _ hplace => Place.isQuote_of_after hplace
  rw [scanned_eq_read, scanned_eq_read, Place.read_append, Place.read_append,
    List.length_append, List.length_append]
  omega

end

theorem Unread.expendable {front behind : Text} (h : Unread front behind) :
    Expendable front behind := by
  obtain ⟨hname, hscanned⟩ := h
  refine ⟨hname, ?_⟩
  rw [attributes_parse_brackets, attributes_parse_brackets, hscanned]

/-- Where no name is given twice, all attributes that are written are those of the tag. -/
theorem Expendable.unread {front behind : Text} (h : Expendable front behind)
    (hbehind : ∀ c ∈ behind, isWhiteSpace c = true)
    (hnodup : ((scanned (front ++ '/' :: behind)).map (·.name)).Nodup) : Unread front behind := by
  obtain ⟨hname, hattributes⟩ := h
  refine ⟨hname, ?_⟩
  rw [attributes_parse_brackets, attributes_parse_brackets,
    Attribute.keepFirst_eq_self hnodup fun _ _ => List.not_mem_nil] at hattributes
  have hsublist := Attribute.keepFirst_sublist [] (scanned (front ++ behind))
  rw [hattributes] at hsublist
  exact (hsublist.eq_of_length_le (length_scanned_le hbehind)).symm

/-- **The slash that closes a tag can be left out where it stands between attributes or ends a name,
and nowhere else.** For the tag that is read this is so if it has no name twice; otherwise it is so
for all the attributes that are written. -/
theorem slash_sheds {inner : Text} (h : (parse ('<' :: inner ++ ['>'])).selfClosing = true) :
    ∃ front behind, inner = front ++ '/' :: behind ∧ (∀ c ∈ behind, isWhiteSpace c = true) ∧
      (Unread front behind ↔ (Place.inTagName.after front).Sheds behind) ∧
      ((Place.inTagName.after front).Sheds behind → Expendable front behind) ∧
      (((scanned inner).map (·.name)).Nodup →
        (Expendable front behind ↔ (Place.inTagName.after front).Sheds behind)) := by
  obtain ⟨front, behind, rfl, hbehind⟩ := exists_slash h
  have hunread : Unread front behind ↔ (Place.inTagName.after front).Sheds behind :=
    unread_iff hbehind
  have hsheds : (Place.inTagName.after front).Sheds behind → Expendable front behind :=
    fun hplace => (hunread.2 hplace).expendable
  refine ⟨front, behind, rfl, hbehind, hunread, hsheds, ?_⟩
  intro hnodup
  constructor
  · intro hexpendable
    exact hunread.1 (hexpendable.unread hbehind hnodup)
  · exact hsheds

/-- A slash in a quoted value, one behind the name of an attribute, and the last one with a blank in
front of it and a blank behind it. -/
theorem slash_sheds_mixed :
    let inner := "p a=\"x/\" b/ / ".toList
    (parse ('<' :: inner ++ ['>'])).selfClosing = true ∧
    ∃ front behind, inner = front ++ '/' :: behind ∧ (∀ c ∈ behind, isWhiteSpace c = true) ∧
      (Unread front behind ↔ (Place.inTagName.after front).Sheds behind) ∧
      ((Place.inTagName.after front).Sheds behind → Expendable front behind) ∧
      (((scanned inner).map (·.name)).Nodup →
        (Expendable front behind ↔ (Place.inTagName.after front).Sheds behind)) := by
  intro inner
  have h : (parse ('<' :: inner ++ ['>'])).selfClosing = true := by decide
  exact ⟨h, slash_sheds h⟩

/-- **The last slash of an unquoted value is in the value, and closes the tag all the same.** -/
theorem slash_of_unquotedValue :
    let tag := parse "<a href=/docs/>".toList
    let without := parse "<a href=/docs>".toList
    tag.selfClosing = true ∧
      tag.attributes = [⟨"href".toList, some "/docs/".toList⟩] ∧
      without.attributes = [⟨"href".toList, some "/docs".toList⟩] ∧
      ¬ Expendable "a href=/docs".toList [] := by
  have hattributes : (parse "<a href=/docs>".toList).attributes ≠
      (parse "<a href=/docs/>".toList).attributes := by decide +kernel
  refine ⟨by decide, by decide +kernel, by decide +kernel, ?_⟩
  intro hexpendable
  exact hattributes hexpendable.2

end StartTag

end RichContent
