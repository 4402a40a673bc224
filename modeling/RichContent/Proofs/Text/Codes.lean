/-
The bytes of a text, and scans that go over them one by one.

The bytes of a character that is no ASCII character are no ASCII characters
either (`mem_codesOf`), so a class of characters that has all of the others or
none of them can be tested on bytes (`Uniform`). A scan that passes over bytes
of such a class stops where a character begins: it passes over the characters of
the class and never stops inside of one (`skip_append`).
-/
import RichContent.Proofs.Text.Boundary

namespace RichContent.Text

/-! ## Bytes -/

/-- The bytes of a character, each as the character with its number. -/
def codesOf (c : Char) : List Char := (String.utf8EncodeChar c).map Char.ofUInt8

/-- The bytes of a text. -/
def codes (t : Text) : List Char := t.flatMap codesOf

/-- The class has all characters that are not of ASCII, or none of them. -/
def Uniform (p : Char → Bool) : Prop := ∃ b, ∀ c : Char, 128 ≤ c.toNat → p c = b

variable {p : Char → Bool} {c d : Char} {t front rest : Text}

theorem ne_of_other (hc : 128 ≤ c.toNat) (hd : d.toNat < 128) : c ≠ d := by
  rintro rfl
  omega

theorem toNat_ofUInt8 (n : Nat) : (Char.ofUInt8 (UInt8.ofNat n)).toNat = n % 256 := by
  show (UInt8.ofNat n).toUInt32.toNat = n % 256
  rw [UInt8.toNat_toUInt32, UInt8.toNat_ofNat']

theorem codesOf_ascii (h : c.toNat < 128) : codesOf c = [c] := by
  have hval : c.val.toNat ≤ 127 := Nat.le_of_lt_succ h
  have hchar : Char.ofUInt8 (UInt8.ofNat c.val.toNat) = c := by
    apply Char.ext
    apply UInt32.toNat_inj.1
    exact (toNat_ofUInt8 _).trans (Nat.mod_eq_of_lt (by omega))
  simp only [codesOf, String.utf8EncodeChar, if_pos hval, List.map_cons, List.map_nil, hchar]

/-- The bytes of other characters are no ASCII characters. -/
theorem mem_codesOf (h : 128 ≤ c.toNat) (hd : d ∈ codesOf c) : 128 ≤ d.toNat := by
  obtain ⟨b, hb, rfl⟩ := List.mem_map.1 hd
  have hval : ¬ c.val.toNat ≤ 127 := Nat.not_le.2 h
  simp only [String.utf8EncodeChar, if_neg hval] at hb
  split at hb
  · simp only [List.mem_cons, List.not_mem_nil, or_false] at hb
    rcases hb with rfl | rfl <;> rw [toNat_ofUInt8] <;> omega
  · split at hb
    · simp only [List.mem_cons, List.not_mem_nil, or_false] at hb
      rcases hb with rfl | rfl | rfl <;> rw [toNat_ofUInt8] <;> omega
    · simp only [List.mem_cons, List.not_mem_nil, or_false] at hb
      rcases hb with rfl | rfl | rfl | rfl <;> rw [toNat_ofUInt8] <;> omega

theorem length_codesOf (c : Char) : (codesOf c).length = c.utf8Size := by
  rw [codesOf, List.length_map, String.length_utf8EncodeChar]

theorem utf8Size_ascii (h : c.toNat < 128) : c.utf8Size = 1 := by
  rw [← length_codesOf, codesOf_ascii h]
  rfl

theorem codes_cons (c : Char) (t : Text) : codes (c :: t) = codesOf c ++ codes t :=
  List.flatMap_cons

theorem codes_append (s t : Text) : codes (s ++ t) = codes s ++ codes t := List.flatMap_append

theorem length_codes (t : Text) : (codes t).length = t.utf8Size := by
  induction t with
  | nil => rfl
  | cons c t ih => rw [codes_cons, List.length_append, length_codesOf, ih, utf8Size_cons]

/-- Where a character begins there is a byte of it. -/
theorem getElem?_codes (front : Text) (c : Char) (rest : Text) :
    ∃ d ∈ codesOf c, (codes (front ++ c :: rest))[front.utf8Size]? = some d := by
  obtain ⟨d, l, hl⟩ : ∃ d l, codesOf c = d :: l := by
    cases hc : codesOf c with
    | nil =>
      have hsize := length_codesOf c
      have hpos : 0 < c.utf8Size := c.utf8Size_pos
      rw [hc, List.length_nil] at hsize
      omega
    | cons d l => exact ⟨d, l, rfl⟩
  refine ⟨d, by rw [hl]; exact List.mem_cons_self, ?_⟩
  rw [codes_append, codes_cons, hl, ← length_codes, List.getElem?_append_right (Nat.le_refl _),
    Nat.sub_self]
  rfl

theorem getElem?_codes_end (t : Text) : (codes t)[t.utf8Size]? = none := by
  rw [← length_codes]
  exact List.getElem?_eq_none (Nat.le_refl _)

/-! ## Classes of characters -/

namespace Uniform

variable {q : Char → Bool}

/-- A byte is in the class if its character is. -/
theorem of_mem_codesOf (hp : Uniform p) (hd : d ∈ codesOf c) : p d = p c := by
  by_cases hc : c.toNat < 128
  · rw [codesOf_ascii hc] at hd
    rw [List.mem_singleton.1 hd]
  · obtain ⟨b, hb⟩ := hp
    rw [hb c (by omega), hb d (mem_codesOf (by omega) hd)]

theorem beq (h : d.toNat < 128) : Uniform (· == d) :=
  ⟨false, fun _ hc => beq_eq_false_iff_ne.2 (ne_of_other hc h)⟩

theorem not (hp : Uniform p) : Uniform fun c => !p c := by
  obtain ⟨b, hb⟩ := hp
  exact ⟨!b, fun c hc => congrArg _ (hb c hc)⟩

theorem or (hp : Uniform p) (hq : Uniform q) : Uniform fun c => p c || q c := by
  obtain ⟨b, hb⟩ := hp
  obtain ⟨b', hb'⟩ := hq
  exact ⟨b || b', fun c hc => by simp only [hb c hc, hb' c hc]⟩

theorem and (hp : Uniform p) (hq : Uniform q) : Uniform fun c => p c && q c := by
  obtain ⟨b, hb⟩ := hp
  obtain ⟨b', hb'⟩ := hq
  exact ⟨b && b', fun c hc => by simp only [hb c hc, hb' c hc]⟩

theorem isBlank : Uniform isBlank :=
  ((((beq (d := ' ') (by decide)).or (beq (d := '\t') (by decide))).or
    (beq (d := '\n') (by decide))).or (beq (d := '\x0c') (by decide))).or
    (beq (d := '\r') (by decide))

end Uniform

theorem isBlank_of_other (h : 128 ≤ c.toNat) : isBlank c = false := by
  obtain ⟨b, hb⟩ := Uniform.isBlank
  have hsame : isBlank c = isBlank 'é' := (hb c h).trans (hb 'é' (by decide)).symm
  exact hsame.trans (by decide)

/-- A byte is a certain ASCII character if its character is. -/
theorem eq_iff_of_mem_codesOf {e : Char} (he : e.toNat < 128) (hd : d ∈ codesOf c) :
    d = e ↔ c = e := by
  have hsame := (Uniform.beq he).of_mem_codesOf hd
  rw [← beq_iff_eq, ← beq_iff_eq (a := c), hsame]

/-! ## Passing over bytes -/

/-- Passes over bytes of a class, from a place on. -/
def skip (p : Char → Bool) (bytes : List Char) (pos : Nat) : Nat :=
  match _h : bytes[pos]? with
  | none => pos
  | some d => if p d then skip p bytes (pos + 1) else pos
termination_by bytes.length - pos
decreasing_by
  have hlt := (List.getElem?_eq_some_iff.1 _h).1
  omega

theorem le_skip (p : Char → Bool) (bytes : List Char) (pos : Nat) : pos ≤ skip p bytes pos := by
  fun_induction skip p bytes pos with
  | case1 => exact Nat.le_refl _
  | case2 pos d _ _ ih => exact Nat.le_of_succ_le ih
  | case3 => exact Nat.le_refl _

section

variable {bytes : List Char} {pos : Nat}

theorem skip_of_none (h : bytes[pos]? = none) : skip p bytes pos = pos := by
  rw [skip]
  split
  · rfl
  · rename_i hd
    rw [h] at hd
    cases hd

theorem skip_of_some (h : bytes[pos]? = some d) :
    skip p bytes pos = if p d then skip p bytes (pos + 1) else pos := by
  rw [skip]
  split
  · rename_i hd
    rw [h] at hd
    cases hd
  · rename_i hd
    rw [h] at hd
    cases hd
    rfl

theorem skip_of_all {run : List Char} (front back : List Char) (h : ∀ d ∈ run, p d = true) :
    skip p (front ++ (run ++ back)) front.length =
      skip p (front ++ (run ++ back)) (front ++ run).length := by
  induction run generalizing front with
  | nil => rw [List.append_nil]
  | cons d run ih =>
    obtain ⟨hd, hrun⟩ := List.forall_mem_cons.1 h
    have hget : (front ++ (d :: run ++ back))[front.length]? = some d := by simp
    have hnext := ih (front ++ [d]) hrun
    simp only [List.append_assoc, List.singleton_append, List.length_append, List.length_singleton]
      at hnext
    rw [skip_of_some hget, if_pos hd, List.cons_append, hnext, List.length_append]

end

/-- **Passing over bytes leads from one boundary to the next**, behind the characters of the
class. -/
theorem skip_append (hp : Uniform p) (front rest : Text) :
    skip p (codes (front ++ rest)) front.utf8Size = (front ++ rest.takeWhile p).utf8Size := by
  have hrun : ∀ d ∈ codes (rest.takeWhile p), p d = true := by
    intro d hd
    obtain ⟨c, hc, hd⟩ := List.mem_flatMap.1 hd
    rw [hp.of_mem_codesOf hd]
    exact List.mem_takeWhile_imp hc
  have hall : front ++ rest = (front ++ rest.takeWhile p) ++ rest.dropWhile p := by
    rw [List.append_assoc, List.takeWhile_append_dropWhile]
  have hpass := skip_of_all (codes front) (codes (rest.dropWhile p)) hrun
  rw [← codes_append, ← codes_append, ← codes_append, length_codes, length_codes,
    ← List.append_assoc, ← hall] at hpass
  rw [hpass]
  cases hdrop : rest.dropWhile p with
  | nil =>
    rw [hdrop, List.append_nil] at hall
    rw [hall]
    exact skip_of_none (getElem?_codes_end _)
  | cons c after =>
    have hc : p c = false := by simpa [hdrop] using List.head?_dropWhile_not p rest
    obtain ⟨d, hd, hget⟩ := getElem?_codes (front ++ rest.takeWhile p) c after
    rw [hall, hdrop, skip_of_some hget, hp.of_mem_codesOf hd, hc]
    rfl

end RichContent.Text
