/-
What is done with calls, told of its parts.

A result comes of two things done in a row if one comes of each, the second
after the calls of the first (`Traced.result_bind_eq_ok`). Whatever is said of
every call that is made is said part by part (`Traced.Makes`), and a service
that is asked one question after the other is asked each of them after the
calls for those before (`Service.Answers`).
-/
import RichContent.Editor.Host

namespace RichContent

namespace Traced

variable {α β γ : Type} {past : History}

theorem result_bind_eq_ok {x : Traced α} {f : α → Traced β} {b : β} :
    ((x >>= f) past).result = .ok b ↔
      ∃ a, (x past).result = .ok a ∧ (f a (past ++ (x past).calls)).result = .ok b := by
  cases h : (x past).result with
  | error e => simp [bind_of_error h]
  | ok a => simp [bind_of_ok h]

theorem bind_congr_at {x y : Traced α} (h : x past = y past) (f : α → Traced β) :
    (x >>= f) past = (y >>= f) past := by
  simp only [bind, h]

@[simp] theorem fail_apply (e : EditorError) : (fail e : Traced α) past = ⟨[], .error e⟩ := rfl

@[simp] theorem pure_bind (a : α) (f : α → Traced β) : pure a >>= f = f a := by
  funext past
  rw [bind_of_ok (a := a) rfl, pure_apply, List.append_nil]
  rfl

theorem bind_pure_apply (x : Traced α) (f : α → β) :
    (x >>= fun a => pure (f a)) past = ⟨(x past).calls, (x past).result.map f⟩ := by
  cases h : (x past).result with
  | error e => rw [bind_of_error h]; rfl
  | ok a => rw [bind_of_ok h, pure_apply, List.append_nil]; rfl

@[simp] theorem bind_pure (x : Traced α) : x >>= pure = x := by
  funext past
  have hmap : (x past).result.map (fun a => a) = (x past).result := by
    cases (x past).result <;> rfl
  exact (bind_pure_apply x fun a => a).trans (by rw [hmap])

theorem map_apply (f : α → β) (x : Traced α) :
    (f <$> x) past = ⟨(x past).calls, (x past).result.map f⟩ :=
  bind_pure_apply x f

/-! ## Calls of a kind -/

/-- Every call that is made is one of these. -/
def Makes (P : Call → Prop) (x : Traced α) : Prop := ∀ past, ∀ c ∈ (x past).calls, P c

variable {P : Call → Prop}

theorem makes_ofExcept (r : Except EditorError α) : Makes P (ofExcept r) :=
  fun _ _ h => absurd h List.not_mem_nil

theorem makes_pure (a : α) : Makes P (pure a) := makes_ofExcept (.ok a)

theorem makes_ask {κ ε : Type} {call : κ → Call} {q : κ} (h : P (call q)) (s : Service call α ε)
    (raise : ε → EditorError) : Makes P (s.ask raise q) :=
  fun _ => List.forall_mem_singleton.2 h

theorem makes_bind {x : Traced α} {f : α → Traced β} (hx : Makes P x) (hf : ∀ a, Makes P (f a)) :
    Makes P (x >>= f) := by
  intro past
  cases h : (x past).result with
  | error e =>
    rw [bind_of_error h]
    exact hx past
  | ok a =>
    rw [bind_of_ok h]
    exact List.forall_mem_append.2 ⟨hx past, hf a _⟩

theorem makes_map (f : α → β) {x : Traced α} (hx : Makes P x) : Makes P (f <$> x) :=
  makes_bind hx fun a => makes_pure (f a)

theorem makes_forEach {f : α → Traced β} (hf : ∀ a, Makes P (f a)) (l : List α) :
    Makes P (forEach f l) := by
  induction l with
  | nil => exact makes_pure []
  | cons a l ih => exact makes_bind (hf a) fun b => makes_bind ih fun bs => makes_pure (b :: bs)

end Traced

/-! ## What services answer -/

namespace Service

variable {κ α ε : Type} {call : κ → Call} {s : Service call α ε} {raise : ε → EditorError}
  {q : κ} {past : History}

theorem ask_of_ok {a : α} (h : s.answer past q = .ok a) (raise : ε → EditorError) :
    s.ask raise q past = ⟨[call q], .ok a⟩ := by
  rw [ask, h]
  rfl

theorem ask_of_error {e : ε} (h : s.answer past q = .error e) (raise : ε → EditorError) :
    s.ask raise q past = ⟨[call q], .error (raise e)⟩ := by
  rw [ask, h]
  rfl

theorem result_ask_eq_ok {a : α} :
    (s.ask raise q past).result = .ok a ↔ s.answer past q = .ok a := by
  cases h : s.answer past q with
  | error e => simp [ask_of_error h]
  | ok b => simp [ask_of_ok h]

/-- The answers to some questions, one after the other. -/
inductive Answers (s : Service call α ε) : History → List κ → List α → Prop
  | nil {past : History} : Answers s past [] []
  | cons {past : History} {q : κ} {qs : List κ} {a : α} {as : List α} : s.answer past q = .ok a →
    Answers s (past ++ [call q]) qs as → Answers s past (q :: qs) (a :: as)

theorem Answers.length_eq {qs : List κ} {as : List α} (h : s.Answers past qs as) :
    as.length = qs.length := by
  induction h with
  | nil => rfl
  | cons _ _ ih => exact congrArg Nat.succ ih

variable {γ β : Type} {question : γ → κ} {make : γ → α → β} {l : List γ}

/-- Asking about each item in turn comes to the end if every question is answered. -/
theorem exists_answers {bs : List β} (h : (Traced.forEach (fun x =>
      s.ask raise (question x) >>= fun a => pure (make x a)) l past).result = .ok bs) :
    ∃ as, s.Answers past (l.map question) as ∧ bs = l.zipWith make as ∧
      (Traced.forEach (fun x => s.ask raise (question x) >>= fun a => pure (make x a)) l past).calls =
        l.map fun x => call (question x) := by
  induction l generalizing past bs with
  | nil => exact ⟨[], .nil, (Except.ok.inj h).symm, rfl⟩
  | cons x l ih =>
    obtain ⟨b, hb, h⟩ := Traced.result_bind_eq_ok.1 h
    obtain ⟨bs', hbs', h⟩ := Traced.result_bind_eq_ok.1 h
    obtain ⟨a, ha, hmake⟩ := Traced.result_bind_eq_ok.1 hb
    cases h
    cases hmake
    rw [result_ask_eq_ok] at ha
    have hask := ask_of_ok ha raise
    simp only [Traced.bind_pure_apply, hask] at hbs'
    obtain ⟨as, has, rfl, hcalls⟩ := ih hbs'
    refine ⟨a :: as, .cons ha has, rfl, ?_⟩
    rw [Traced.forEach, Traced.bind_of_ok hb, Traced.bind_pure_apply, Traced.bind_pure_apply, hask,
      hcalls]
    rfl

end Service

end RichContent
