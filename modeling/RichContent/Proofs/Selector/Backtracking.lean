/-
The reader of one token after the other does what the grammar says.

It never gives anything back, and what it expects at a place stands in a table
(`Place.expected`). The grammar tries one thing after the other, and its errors
come of the rules for the try that got furthest. Both make the same of every
text (`parse_agrees`). Behind a part that is complete there is always a try for
one more that has failed, at the next token or further on (`Halts`). Each
separator is wanted there too, and adds itself to what was expected
(`many_separated`); and what is read behind it is known by the same statement
one level down, from compound selectors to chains and from these to selectors.
-/
import RichContent.Proofs.Selector.Grammar

namespace RichContent.Selector

open Text

/-! ## Some qualifiers -/

section

variable {s : Cursor}

/-- With some qualifiers more. -/
def Draft.withQualifiers (d : Draft) (qs : List Qualifier) : Draft := qs.foldl .withQualifier d

theorem Draft.withQualifiers_eq (d : Draft) {qs : List Qualifier} (h : qs ≠ []) :
    d.withQualifiers qs = { d with
      current := { d.current with qualifiers := d.current.qualifiers ++ qs }, place := .item } := by
  induction qs generalizing d with
  | nil => exact absurd rfl h
  | cons q qs ih =>
    cases qs with
    | nil => rfl
    | cons q' qs =>
      have hne : q' :: qs ≠ [] := List.cons_ne_nil _ _
      rw [withQualifiers, List.foldl_cons]
      refine (ih (d.withQualifier q) hne).trans ?_
      simp [withQualifier]

/-- Between two places are qualifiers, or nothing. -/
def Between (qs : List Qualifier) (s s' : Cursor) : Prop :=
  qs = [] ∧ s' = s ∨ qs ≠ [] ∧ ∀ d : Draft, d.Open → d.Goes s (d.withQualifiers qs) s'

theorem Between.length_le {qs : List Qualifier} {s' : Cursor} (h : Between qs s s') :
    s'.rest.length ≤ s.rest.length := by
  rcases h with ⟨-, rfl⟩ | ⟨-, hgoes⟩
  · exact Nat.le_refl _
  · exact Nat.le_of_lt (hgoes .empty Draft.open_empty).before.length_lt

/-- Qualifiers are read one after the other, and the try for one more fails. -/
theorem many_qualifier (s : Cursor) : ∃ qs s' f,
    Reader.many Reader.qualifier s = ⟨some (qs, s'), some f⟩ ∧ Between qs s s' ∧
    Tries marks s' ⟨none, some f⟩ := by
  induction hn : s.rest.length using Nat.strong_induction_on generalizing s with
  | h n ih =>
    subst hn
    generalize hq : Reader.qualifier s = a
    have h := hq ▸ tries_qualifier s
    cases h with
    | absent => exact ⟨[], s, _, Reader.many_of_none hq, .inl ⟨rfl, rfl⟩, hq ▸ tries_qualifier s⟩
    | broken => exact ⟨[], s, _, Reader.many_of_none hq, .inl ⟨rfl, rfl⟩, hq ▸ tries_qualifier s⟩
    | @read q s' b hmark hgoes hpassed =>
      have hlt := (hgoes .empty Draft.open_empty).before.length_lt
      obtain ⟨qs, s'', f, hmany, hqs, htries⟩ := ih _ hlt s' rfl
      have hle := Nat.le_trans htries.left_le hqs.length_le
      refine ⟨q :: qs, s'', f, ?_, .inr ⟨List.cons_ne_nil _ _, fun d hd => ?_⟩, htries⟩
      · rw [Reader.many_of_some hq hlt, hmany, hpassed.merge_some hle]
        rfl
      · rcases hqs with ⟨rfl, rfl⟩ | ⟨-, hqs⟩
        · exact hgoes d hd
        · exact (hgoes d hd).trans (hqs _ (.inr rfl))

end

/-! ## Compound selectors -/

/-- What is known of the try that has failed behind a complete part: it has failed at the next
token, which is none of those that were wanted there, or further on, and then that is the error. -/
inductive Halts (l : List Expectation) (d : Draft) (s : Cursor) : Setback → Prop
  | here {m : List Expectation} : (∀ x ∈ s.rest.head?, .token x.token ∉ l) → m.Perm l →
    Halts l d s (s.setback m)
  | beyond {f : Setback} {e : Error} : (∃ x ∈ s.rest.head?, .token x.token ∈ l) →
    f.left < s.rest.length → d.readFrom s = .error e → e.Alike f.error → Halts l d s f

/-- Behind a complete part of a compound selector. -/
structure Draft.Whole (d : Draft) : Prop where
  place : d.place = .item
  current : d.current ≠ ⟨none, []⟩

/-- What becomes of a reader of compound selectors, of which one has to begin. Behind it something
has been tried for that is wanted there. -/
inductive Outcome {α : Type} (l : List Expectation) (P : α → Draft → Prop) (d : Draft)
    (s : Cursor) : Attempt α → Prop
  | read {a : α} {d' : Draft} {s' : Cursor} {f : Setback} : d.Goes s d' s' → d'.Whole → P a d' →
    Halts l d' s' f → Outcome l P d s ⟨some (a, s'), some f⟩
  | refused {f : Setback} {e : Error} : f.left ≤ s.rest.length → d.readFrom s = .error e →
    e.Alike f.error → Outcome l P d s ⟨none, some f⟩

/-- At the beginning of a compound selector, with what is before it read up to a place. -/
structure Draft.Begins (d : Draft) (s : Cursor) : Prop where
  place : d.place = .start
  current : d.current = ⟨none, []⟩
  origin : d.origin = s.behind
  tight : s.Tight

section

variable {d : Draft} {s s' : Cursor} {f : Setback} {l : List Expectation}

theorem Halts.left_le (h : Halts l d s f) : f.left ≤ s.rest.length := by
  cases h with
  | here => exact Nat.le_refl _
  | beyond _ hlt => exact Nat.le_of_lt hlt

theorem halts_of_tries (hd : d.Whole) (h : Tries l s ⟨none, some f⟩) : Halts l d s f := by
  cases h with
  | absent hl => exact .here hl (.refl _)
  | @broken p s' m hmark hgoes hstuck hm =>
    have hgoes := hgoes d (.inr hd.place)
    have hread := hgoes.readFrom_eq.trans (Draft.readFrom_of_stuck (d := d.moveTo p) hstuck)
    have hcurrent : (d.moveTo p).current ≠ ⟨none, []⟩ := hd.current
    rw [Draft.error, if_neg hcurrent] at hread
    exact .beyond hmark hgoes.before.length_lt hread ⟨rfl, rfl, hm.symm⟩

theorem typeSelector_cases (s : Cursor) :
    (∃ x rest type b, s.rest = x :: rest ∧
      Reader.typeSelector s = ⟨some (type, s.after x rest), b⟩ ∧ (s.after x rest).Passed b ∧
      ∀ d : Draft, d.place = .start → ∀ stop, d.step? stop x.token = some (d.withType type)) ∨
    (∀ x ∈ s.rest.head?, x.token ≠ .star ∧ ∀ n, x.token ≠ .ident n) ∧
      Reader.typeSelector s = ⟨none, some (s.setback [.token .star])⟩ := by
  rcases Reader.just_cases .star s with ⟨x, rest, hrest, hx, hstar⟩ | ⟨hne, hstar⟩
  · refine .inl ⟨x, rest, .universal, none, hrest, ?_, Cursor.passed_none, fun d hd stop => ?_⟩
    · exact Reader.orElse_of_some (Reader.bind_of_smooth hstar)
    · simp only [hx, Draft.step?, hd]
  · have hstar' : (do Reader.just .star; return TypeSelector.universal : Reader TypeSelector) s =
        ⟨none, some (s.setback [.token .star])⟩ := Reader.bind_of_none hstar
    rw [Reader.typeSelector, Reader.orElse_of_none hstar']
    rcases Reader.take_cases Token.name? [] s with
      ⟨x, rest, n, hrest, hn, hname⟩ | ⟨hnone, hname⟩
    · refine .inl ⟨x, rest, .named (lower n), some (s.setback [.token .star]), hrest, ?_,
        (Cursor.Before.one hrest).passed_setback _, fun d hd stop => ?_⟩
      · rw [Reader.name, Reader.bind_of_smooth hname]
        rfl
      · cases hx : x.token with
        | ident =>
          rw [hx] at hn
          cases hn
          simp only [Draft.step?, hd]
        | _ =>
          rw [hx] at hn
          cases hn
    · refine .inr ⟨fun x hx => ⟨hne x hx, fun n hn => ?_⟩, ?_⟩
      · have h := hnone x hx
        rw [hn] at h
        cases h
      · rw [Reader.name, Reader.bind_of_none hname, Option.merge, s.merge_setback (by decide)]
        rfl

/-- Nothing of a compound selector is read, and that is the error, wherever the try for a qualifier
has failed. -/
theorem readFrom_of_tries (hd : d.Begins s)
    (hne : ∀ x ∈ s.rest.head?, x.token ≠ .star ∧ ∀ n, x.token ≠ .ident n)
    (h : Tries marks s ⟨none, some f⟩) :
    d.readFrom s = .error ⟨s.spanTo s, .noCompound, []⟩ := by
  have hspan : d.origin.elim ⟨0, s.size⟩ (fun n => ⟨n, n⟩) = s.spanTo s := by
    rw [Cursor.spanTo, hd.tight.start_span, hd.origin]
    cases s.behind <;> rfl
  have herror (p : Place) (obstacle : Obstacle) (span : Span) :
      (d.moveTo p).error s.size obstacle span = ⟨s.spanTo s, .noCompound, []⟩ := by
    have hcurrent : (d.moveTo p).current = ⟨none, []⟩ := hd.current
    rw [Draft.error, if_pos hcurrent, ← hspan]
    rfl
  cases h with
  | absent hmarks =>
    have hstuck : d.place.Stuck s := by
      rw [hd.place]
      refine ⟨fun _ => by rintro ⟨⟩, fun x hx => ?_⟩
      obtain ⟨hstar, hident⟩ := hne x hx
      have hmark := hmarks x hx
      cases htoken : x.token with
      | star => exact absurd htoken hstar
      | ident n => exact absurd htoken (hident n)
      | dot | hash | opening =>
        rw [htoken] at hmark
        exact absurd (by decide) hmark
      | _ => rfl
    rw [Draft.readFrom_of_stuck hstuck]
    exact congrArg Except.error (herror d.place _ _)
  | @broken p s' m hmark hgoes hstuck hm =>
    have hgoes := hgoes d (.inl hd.place)
    rw [hgoes.readFrom_eq, Draft.readFrom_of_stuck (d := d.moveTo p) hstuck, hgoes.before.size_eq,
      herror]

/-- A compound selector is read, or nothing of it is. -/
theorem outcome_compound (hd : d.Begins s) : Outcome marks
    (fun c d' => d'.chains = d.chains ∧ d'.compounds = d.compounds ∧ d'.current = c) d s
    (Reader.compound s) := by
  rcases typeSelector_cases s with ⟨x, rest, type, b, hrest, htype, hpassed, hstep⟩ | ⟨hne, htype⟩
  · obtain ⟨qs, s', f, hmany, hqs, htries⟩ := many_qualifier (s.after x rest)
    have hread : Reader.parts s = ⟨some (⟨some type, qs⟩, s'), some f⟩ := by
      have hle := Nat.le_trans htries.left_le hqs.length_le
      rw [Reader.parts, Reader.bind_of_some (Reader.optional_of_some htype),
        Reader.bind_of_some hmany, Reader.pure_apply, Option.merge_none_right,
        hpassed.merge_some hle]
    have hgoes : d.Goes s { d with current := ⟨some type, qs⟩, place := .item } s' := by
      have htyped := Draft.Goes.one hrest (hstep d hd.place _)
      rcases hqs with ⟨rfl, rfl⟩ | ⟨hne, hqs⟩
      · simpa only [Draft.withType, hd.current] using htyped
      · have hqualified := htyped.trans (hqs _ (.inr rfl))
        rw [Draft.withQualifiers_eq _ hne] at hqualified
        simpa only [Draft.withType, hd.current, List.nil_append] using hqualified
    rw [Reader.compound, Reader.check_of_keeps hread (by rfl)]
    have hwhole : Draft.Whole { d with current := ⟨some type, qs⟩, place := .item } :=
      ⟨rfl, by rintro ⟨⟩⟩
    exact .read hgoes hwhole ⟨rfl, rfl, rfl⟩ (halts_of_tries hwhole htries)
  · obtain ⟨qs, s', f, hmany, hqs, htries⟩ := many_qualifier s
    have hread : Reader.parts s = ⟨some (⟨none, qs⟩, s'),
        (some (s.setback [.token .star])).merge Setback.merge (some f)⟩ := by
      rw [Reader.parts, Reader.bind_of_some (Reader.optional_of_none htype),
        Reader.bind_of_some hmany, Reader.pure_apply, Option.merge_none_right]
    rcases hqs with ⟨rfl, rfl⟩ | ⟨hqs, hgoes⟩
    · rw [Reader.compound, Reader.check_of_not_keeps hread (by rfl)]
      exact .refused (Nat.le_refl _) (readFrom_of_tries hd hne htries) ⟨rfl, rfl, .refl _⟩
    · have hgoes := hgoes d (.inl hd.place)
      have hkeeps : ((⟨none, qs⟩ : Compound) != ⟨none, []⟩) = true := by
        rw [bne_iff_ne]
        exact fun heq => hqs (congrArg Compound.qualifiers heq)
      rw [Reader.compound, Reader.check_of_keeps hread hkeeps,
        (hgoes.before.passed_setback _).merge_some htries.left_le]
      rw [Draft.withQualifiers_eq _ hqs, hd.current, List.nil_append] at hgoes
      have hwhole : Draft.Whole { d with current := ⟨none, qs⟩, place := .item } :=
        ⟨rfl, bne_iff_ne.1 hkeeps⟩
      exact .read hgoes hwhole ⟨rfl, rfl, rfl⟩ (halts_of_tries hwhole htries)

end

/-! ## With separators between -/

/-- A separator leads on to the beginning of the next compound selector. What has been read of the
kind that it separates is known before and behind. -/
structure Separating {α : Type} (t : Token) (enter : Draft → Nat → Draft)
    (before after : List α → Draft → Prop) : Prop where
  step? : ∀ (d : Draft) (stop : Nat), d.place = .item → d.step? stop t = some (enter d stop)
  place : ∀ (d : Draft) (stop : Nat), (enter d stop).place = .start
  current : ∀ (d : Draft) (stop : Nat), (enter d stop).current = ⟨none, []⟩
  origin : ∀ (d : Draft) (stop : Nat), (enter d stop).origin = some stop
  before : ∀ (d : Draft) (stop : Nat) (as : List α), after as d → before as (enter d stop)

section

variable {α : Type} {r : Reader α} {l : List Expectation} {t : Token} {enter : Draft → Nat → Draft}
  {before after : List α → Draft → Prop}

theorem Separating.begins (h : Separating t enter before after) {s : Cursor} {x : Token.Placed}
    {rest : List Token.Placed} (hs : s.Tight) (hrest : s.rest = x :: rest) (d : Draft) :
    (enter d x.slice.stop).Begins (s.after x rest) :=
  ⟨h.place _ _, h.current _ _, h.origin _ _, hs.after hrest⟩

/-- What becomes of some of one kind with separators between, if it is known of one. -/
theorem many_separated (h : Separating t enter before after)
    (hl : (l ++ [Expectation.token t]).Nodup)
    (hr : ∀ (d : Draft) (s : Cursor) (as : List α), d.Begins s → before as d →
      Outcome l (fun a => after (as ++ [a])) d s (r s))
    {d : Draft} {s : Cursor} {f : Setback} {as : List α} (hs : s.Tight) (hd : d.Whole)
    (hafter : after as d) (hhalts : Halts l d s f) :
    ∃ bs s' b f' d', Reader.many (do Reader.just t; r) s = ⟨some (bs, s'), b⟩ ∧
      (some f).merge Setback.merge b = some f' ∧ (s' = s ∧ d' = d ∨ d.Goes s d' s') ∧ d'.Whole ∧
      after (as ++ bs) d' ∧ Halts (l ++ [.token t]) d' s' f' := by
  induction hn : s.rest.length using Nat.strong_induction_on generalizing d s f as with
  | h n ih =>
    subst hn
    rcases Reader.just_cases t s with ⟨x, rest, hrest, rfl, hjust⟩ | ⟨hne, hjust⟩
    · have hmark : Expectation.token x.token ∈ l ++ [.token x.token] :=
        List.mem_append_right _ (List.mem_singleton_self _)
      have hstep := Draft.Goes.one hrest (h.step? d x.slice.stop hd.place)
      -- no part begins with a separator, so what was tried before it failed at it
      have hhere : f.left = s.rest.length := by
        cases hhalts with
        | here => rfl
        | beyond hmem =>
          obtain ⟨y, hy, hyl⟩ := hmem
          rw [hrest] at hy
          cases hy
          exact ((List.nodup_append.1 hl).2.2 _ hyl _ (List.mem_singleton_self _) rfl).elim
      have hsmooth : (Reader.just x.token >>= fun _ => r) s = r (s.after x rest) :=
        Reader.bind_of_smooth hjust
      generalize ha : r (s.after x rest) = a at hsmooth
      have hone := ha ▸ hr _ _ as (h.begins hs hrest d) (h.before d _ as hafter)
      cases hone with
      | @read a d' s' f' hgoes hd' hafter' hhalts' =>
        have hgoes' := hstep.trans hgoes
        have hlt := hgoes'.before.length_lt
        obtain ⟨bs, s'', b, f'', d'', hmany, hmerge, hto, hd'', hafter'', hhalts''⟩ :=
          ih _ hlt (hs.before hgoes'.before) hd' hafter' hhalts' rfl
        have hle : s''.rest.length ≤ s'.rest.length := by
          rcases hto with ⟨rfl, -⟩ | hto
          · exact Nat.le_refl _
          · exact Nat.le_of_lt hto.before.length_lt
        have hfurther : f''.left < f.left := by
          have := hhalts''.left_le
          omega
        refine ⟨a :: bs, s'', some f'', f'', d'', ?_, ?_, .inr ?_, hd'', ?_, hhalts''⟩
        · rw [Reader.many_of_some hsmooth hlt, hmany, hmerge]
          rfl
        · rw [Option.merge, Setback.merge_of_lt_left hfurther]
        · rcases hto with ⟨rfl, rfl⟩ | hto
          · exact hgoes'
          · exact hgoes'.trans hto
        · rwa [List.append_assoc] at hafter''
      | @refused f' e hle hread halike =>
        -- the separator is given back, but the setback behind it got further
        have hlt := Nat.lt_of_le_of_lt hle (Cursor.length_after hrest)
        refine ⟨[], s, some f', f', d, Reader.many_of_none hsmooth, ?_, .inl ⟨rfl, rfl⟩, hd, ?_, ?_⟩
        · rw [Option.merge, Setback.merge_of_lt_left (hhere ▸ hlt)]
        · rwa [List.append_nil]
        · exact .beyond ⟨x, by rw [hrest]; rfl, hmark⟩ hlt (hstep.readFrom_eq.trans hread) halike
    · have hnone : (Reader.just t >>= fun _ => r) s = ⟨none, some (s.setback [.token t])⟩ :=
        Reader.bind_of_none hjust
      suffices hmerge : ∃ f', f.merge (s.setback [.token t]) = f' ∧
          Halts (l ++ [.token t]) d s f' by
        obtain ⟨f', hmerge, hhalts'⟩ := hmerge
        exact ⟨[], s, _, f', d, Reader.many_of_none hnone, congrArg some hmerge, .inl ⟨rfl, rfl⟩,
          hd, by rwa [List.append_nil], hhalts'⟩
      cases hhalts with
      | @here m hm hperm =>
        have hperm' := hperm.append_right [.token t]
        refine ⟨_, s.merge_setback (hperm'.nodup_iff.2 hl), .here (fun x hx hmem => ?_) hperm'⟩
        rcases List.mem_append.1 hmem with hmem | hmem
        · exact hm x hx hmem
        · exact hne x hx (Expectation.token.inj (List.mem_singleton.1 hmem))
      | beyond hmem hlt hread halike =>
        obtain ⟨x, hx, hmem⟩ := hmem
        exact ⟨f, Setback.merge_of_left_lt hlt,
          .beyond ⟨x, hx, List.mem_append_left _ hmem⟩ hlt hread halike⟩

/-- One of a kind and some more. -/
theorem outcome_separated (h : Separating t enter before after)
    (hl : (l ++ [Expectation.token t]).Nodup)
    (hr : ∀ (d : Draft) (s : Cursor) (as : List α), d.Begins s → before as d →
      Outcome l (fun a => after (as ++ [a])) d s (r s))
    {d : Draft} {s : Cursor} (as : List α) (hd : d.Begins s) (hbefore : before as d) :
    Outcome (l ++ [.token t]) (fun bs => after (as ++ bs)) d s
      (Reader.separated (.just t) r s) := by
  generalize ha : r s = a
  have hone := ha ▸ hr d s as hd hbefore
  cases hone with
  | @read a d' s' f hgoes hd' hafter hhalts =>
    obtain ⟨bs, s'', b, f', d'', hmany, hmerge, hto, hd'', hafter', hhalts'⟩ :=
      many_separated h hl hr (hd.tight.before hgoes.before) hd' hafter hhalts
    have hread : Reader.separated (.just t) r s = ⟨some (a :: bs, s''), some f'⟩ := by
      rw [Reader.separated, Reader.bind_of_some ha, Reader.bind_of_some hmany, Reader.pure_apply,
        Option.merge_none_right, hmerge]
    have hgoes' : d.Goes s d'' s'' := by
      rcases hto with ⟨rfl, rfl⟩ | hto
      · exact hgoes
      · exact hgoes.trans hto
    rw [List.append_assoc] at hafter'
    rw [hread]
    exact .read hgoes' hd'' hafter' hhalts'
  | refused hle hread halike =>
    rw [Reader.separated, Reader.bind_of_none ha]
    exact .refused hle hread halike

end

/-! ## Selectors -/

/-- What a combined reader makes of a text is what the other makes of it. -/
inductive Attempt.Agrees : Attempt Selector → Except Error Selector → Prop
  | ok {l : Selector} {s : Cursor} {b : Option Setback} : Agrees ⟨some (l, s), b⟩ (.ok l)
  | error {f : Setback} {e : Error} : e.Alike f.error → Agrees ⟨none, some f⟩ (.error e)

section

variable {d : Draft} {s : Cursor}

theorem separating_space (chains : List Chain) : Separating .space Draft.nextCompound
    (fun cs d => d.chains = chains ∧ d.compounds = cs)
    (fun cs d => d.chains = chains ∧ d.compounds ++ [d.current] = cs) where
  step? := by
    intro d stop hplace
    simp only [Draft.step?, hplace]
  place _ _ := rfl
  current _ _ := rfl
  origin _ _ := rfl
  before _ _ _ h := h

theorem separating_comma : Separating .comma Draft.nextChain
    (fun l d => d.chains = l ∧ d.compounds = [])
    (fun l d => d.chains ++ [d.compounds ++ [d.current]] = l) where
  step? := by
    intro d stop hplace
    simp only [Draft.step?, hplace]
  place _ _ := rfl
  current _ _ := rfl
  origin _ _ := rfl
  before _ _ _ h := ⟨h, rfl⟩

theorem Outcome.imp {α : Type} {l : List Expectation} {P Q : α → Draft → Prop} {a : Attempt α}
    (h : Outcome l P d s a) (hpq : ∀ x d', P x d' → Q x d') : Outcome l Q d s a := by
  cases h with
  | read hgoes hd hp hhalts => exact .read hgoes hd (hpq _ _ hp) hhalts
  | refused hle hread halike => exact .refused hle hread halike

theorem outcome_chain (chains : List Chain) {cs : List Compound} (hd : d.Begins s)
    (hbefore : d.chains = chains ∧ d.compounds = cs) : Outcome (marks ++ [.token .space])
      (fun bs d' => d'.chains = chains ∧ d'.compounds ++ [d'.current] = cs ++ bs) d s
      (Reader.chain s) := by
  refine outcome_separated (separating_space chains) (by decide) ?_ cs hd hbefore
  intro d s cs hd hbefore
  obtain ⟨rfl, rfl⟩ := hbefore
  refine (outcome_compound hd).imp fun c d' h => ?_
  obtain ⟨hchains, hcompounds, rfl⟩ := h
  exact ⟨hchains, by rw [hcompounds]⟩

theorem outcome_chains (hd : d.Begins s) (hchains : d.chains = []) (hcompounds : d.compounds = []) :
    Outcome (marks ++ [.token .space] ++ [.token .comma])
      (fun l d' => d'.chains ++ [d'.compounds ++ [d'.current]] = l) d s
      (Reader.separated (.just .comma) Reader.chain s) := by
  refine outcome_separated separating_comma (by decide) ?_ [] hd ⟨hchains, hcompounds⟩
  intro d s l hd hbefore
  refine (outcome_chain l hd hbefore).imp fun c d' h => ?_
  rw [h.1, h.2]
  rfl

/-- Behind the last part either the text ends or the try that got furthest is the error. -/
theorem agrees_selector (hd : d.Begins s) (hchains : d.chains = [])
    (hcompounds : d.compounds = []) : (Reader.selector s).Agrees (d.readFrom s) := by
  generalize ha : Reader.separated (.just .comma) Reader.chain s = a
  have h := ha ▸ outcome_chains hd hchains hcompounds
  cases h with
  | @refused f e hle hread halike =>
    rw [Reader.selector, Reader.bind_of_none ha, hread]
    exact .error halike
  | @read l d' s' f hgoes hd' hl hhalts =>
    rw [Reader.selector, Reader.bind_of_some ha, hgoes.readFrom_eq]
    cases hrest : s'.rest with
    | nil =>
      have hending : Reader.ending s' = ⟨some ((), s'), none⟩ := by rw [Reader.ending, hrest]
      have hread : d'.readFrom s' = .ok l := by
        rw [Draft.readFrom, hrest, Draft.read, Draft.finish?, hd'.place, ← hl]
      rw [Reader.bind_of_smooth hending, hread]
      exact .ok
    | cons x rest =>
      have hending : Reader.ending s' = ⟨none, some (s'.setback [.ending])⟩ := by
        rw [Reader.ending, hrest]
      rw [Reader.bind_of_none hending, Option.merge]
      cases hhalts with
      | @here m hm hperm =>
        have hstuck : d'.place.Stuck s' := by
          rw [hd'.place]
          refine ⟨fun hnil => absurd (hrest.symm.trans hnil) (List.cons_ne_nil _ _), fun y hy => ?_⟩
          have hmark := hm y hy
          cases htoken : y.token with
          | dot | hash | opening | space | comma =>
            rw [htoken] at hmark
            exact absurd (by decide) hmark
          | _ => rfl
        have hexpected : (Place.expected .item).Perm (m ++ [.ending]) :=
          List.Perm.trans (by decide) (hperm.symm.append_right _)
        rw [Draft.readFrom_of_stuck hstuck, Draft.error, if_neg hd'.current, hd'.place,
          s'.merge_setback (hexpected.nodup_iff.1 (Place.nodup_expected _))]
        exact .error ⟨rfl, rfl, hexpected⟩
      | beyond hmem hlt hread halike =>
        rw [Setback.merge_of_left_lt hlt, hread]
        exact .error halike

end

/-- **The reader of one token after the other makes of every text what the grammar makes of it**,
which tries and gives back: the same selector, or the same error. -/
theorem parse_agrees (t : Text) :
    (Reader.selector ⟨(trim t).utf8Size, Token.all 0 (trim t), none⟩).Agrees (parse t) := by
  have htight := Token.tile_all 0 (trim t)
  rw [Nat.zero_add] at htight
  exact agrees_selector (d := .empty) ⟨rfl, rfl, rfl, htight⟩ rfl rfl

end RichContent.Selector
