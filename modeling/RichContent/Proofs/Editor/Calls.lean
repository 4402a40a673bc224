/-
Which calls are made to the host when an instance is built and when an editor
is rendered, and in which order.

Both have a plan: the calls they would make if every one was answered, which is
known before the first (`InstancePlan.lookups`, `Editor.renderCalls`). They
follow it (`Traced.Follows`): the calls are those of the plan, up to the first
that fails, and its failure is the error. Plans are put together as the actions
are (`follows_bind`, `follows_forEach`). What a service answers may depend on the
calls that were made before, and those are the same as long as all are
answered.
-/
import RichContent.Proofs.Editor.History

namespace RichContent

open Text

/-! ## Plans -/

/-- A call that is to be made, and its failure if it is not answered after the calls made before. -/
structure Call.Planned where
  call : Call
  failure? : History → Option Failure

/-- The call for a question, and what the service answers. -/
def Service.planned {κ α : Type} {call : κ → Call} (s : Service call α Failure) (question : κ) :
    Call.Planned where
  call := call question
  failure? past :=
    match s.answer past question with
    | .ok _ => none
    | .error failure => some failure

namespace Call.Planned

/-- Whether the call is answered does not depend on the calls made before. -/
def Steady (q : Planned) : Prop := ∀ past past', q.failure? past = q.failure? past'

/-- All calls of a plan are answered, one after the other. -/
def AllAnswered (past : History) : List Planned → Prop
  | [] => True
  | q :: rest => q.failure? past = none ∧ AllAnswered (past ++ [q.call]) rest

theorem allAnswered_append {past : History} {l m : List Planned} : AllAnswered past (l ++ m) ↔
    AllAnswered past l ∧ AllAnswered (past ++ l.map (·.call)) m := by
  induction l generalizing past with
  | nil => simp [AllAnswered]
  | cons q l ih => simp [AllAnswered, ih, and_assoc]

theorem AllAnswered.of_steady {past past' : History} {plan : List Planned}
    (h : AllAnswered past plan) (hsteady : ∀ q ∈ plan, q.Steady) : AllAnswered past' plan := by
  induction plan generalizing past past' with
  | nil => trivial
  | cons q plan ih =>
    obtain ⟨hq, hplan⟩ := List.forall_mem_cons.1 hsteady
    exact ⟨(hq past' past).trans h.1, ih h.2 hplan⟩

end Call.Planned

open Call.Planned

namespace Traced

variable {α β γ : Type}

/-- The calls are those of the plan, and there is a result if all of them are answered; otherwise
they go as far as the first that fails, and its failure is the error. -/
inductive FollowsAfter (past : History) (plan : List Call.Planned) (t : Trace α) : Prop
  | through {a : α} : AllAnswered past plan → t.calls = plan.map (·.call) → t.result = .ok a →
    FollowsAfter past plan t
  | stops (before after : List Call.Planned) {q : Call.Planned} {failure : Failure} :
    plan = before ++ q :: after → AllAnswered past before →
    q.failure? (past ++ before.map (·.call)) = some failure →
    t.calls = before.map (·.call) ++ [q.call] → t.result = .error (.host failure) →
    FollowsAfter past plan t

/-- The plan is followed, whatever calls were made before. -/
def Follows (plan : List Call.Planned) (x : Traced α) : Prop :=
  ∀ past, FollowsAfter past plan (x past)

variable {plan plan' : List Call.Planned}

theorem follows_pure (a : α) : Follows [] (pure a) := fun _ => .through trivial rfl rfl

theorem follows_ask {κ : Type} {call : κ → Call} (s : Service call α Failure) (q : κ) :
    Follows [s.planned q] (s.ask .host q) := by
  intro past
  cases h : s.answer past q with
  | ok a =>
    rw [Service.ask_of_ok h .host]
    exact .through ⟨by simp [Service.planned, h], trivial⟩ rfl rfl
  | error failure =>
    rw [Service.ask_of_error h .host]
    exact .stops [] [] rfl trivial (by simp [Service.planned, h]) rfl rfl

/-- What goes on with the result follows the rest of the plan. -/
theorem follows_bind {x : Traced α} {f : α → Traced β} (hx : Follows plan x)
    (hf : ∀ a, Follows plan' (f a)) : Follows (plan ++ plan') (x >>= f) := by
  intro past
  cases hx past with
  | @through a hall hcalls hresult =>
    rw [bind_of_ok hresult, hcalls]
    cases hf a (past ++ plan.map (·.call)) with
    | through hall' hcalls' hresult' =>
      exact .through (allAnswered_append.2 ⟨hall, hall'⟩) (by simp [hcalls']) hresult'
    | @stops before after q failure hplan hbefore hq hcalls' hresult' =>
      refine .stops (plan ++ before) after (by rw [hplan, List.append_assoc])
        (allAnswered_append.2 ⟨hall, hbefore⟩) ?_ (by simp [hcalls']) hresult'
      rw [List.map_append, ← List.append_assoc]
      exact hq
  | @stops before after q failure hplan hbefore hq hcalls hresult =>
    rw [bind_of_error hresult]
    exact .stops before (after ++ plan') (by simp [hplan]) hbefore hq hcalls rfl

theorem follows_bind_pure {x : Traced α} (hx : Follows plan x) (f : α → β) :
    Follows plan (x >>= fun a => pure (f a)) := by
  have h := follows_bind (f := fun a => pure (f a)) hx fun a => follows_pure (f a)
  rwa [List.append_nil] at h

/-- What is done for each item in turn follows one plan after the other. -/
theorem follows_forEach {f : γ → Traced β} {call : γ → Call.Planned}
    (hf : ∀ c, Follows [call c] (f c)) (l : List γ) : Follows (l.map call) (forEach f l) := by
  induction l with
  | nil => exact follows_pure []
  | cons c l ih => exact follows_bind (hf c) fun b => follows_bind_pure ih fun bs => b :: bs

/-! ## Where all is answered -/

variable {past : History} {t : Trace α}

theorem FollowsAfter.of_ok {a : α} (h : FollowsAfter past plan t) (ha : t.result = .ok a) :
    AllAnswered past plan ∧ t.calls = plan.map (·.call) := by
  cases h with
  | through hall hcalls _ => exact ⟨hall, hcalls⟩
  | stops _ _ _ _ _ _ hresult =>
    rw [hresult] at ha
    cases ha

theorem FollowsAfter.of_answered (h : FollowsAfter past plan t) (hall : AllAnswered past plan) :
    t.calls = plan.map (·.call) ∧ ∃ a, t.result = .ok a := by
  cases h with
  | through _ hcalls hresult => exact ⟨hcalls, _, hresult⟩
  | @stops before after q failure hplan _ hq _ _ =>
    rw [hplan, allAnswered_append] at hall
    rw [hall.2.1] at hq
    cases hq

/-- No other calls are made than those of the plan. -/
theorem FollowsAfter.calls_prefix (h : FollowsAfter past plan t) :
    t.calls <+: plan.map (·.call) := by
  cases h with
  | through _ hcalls _ => exact hcalls ▸ List.prefix_rfl
  | @stops before after q failure hplan _ _ hcalls _ =>
    rw [hcalls, hplan]
    exact ⟨after.map (·.call), by simp⟩

end Traced

open Traced

/-! ## Building an instance -/

namespace InstancePlan

variable {p : InstancePlan} {lookup : ToolLookup}

/-- Each tool of the configuration is looked up, as often as it is listed. -/
def lookups (p : InstancePlan) (lookup : ToolLookup) : List Call.Planned :=
  p.toolIds.map fun id => lookup.planned (id, p.id)

theorem follows_build (p : InstancePlan) (lookup : ToolLookup) :
    Follows (p.lookups lookup) (p.build lookup) :=
  follows_bind_pure (follows_forEach (fun _ => follows_ask _ _) p.toolIds) _

/-- The tools are those that are found, in the order in which they are listed. -/
theorem build_eq_ok {past : History} {i : Instance} (h : (p.build lookup past).result = .ok i) :
    i.toInstancePlan = p ∧ ∃ found, lookup.Answers past (p.toolIds.map fun id => (id, p.id)) found ∧
      i.tools = found.reduceOption := by
  rw [build] at h
  obtain ⟨found, hfound, h⟩ := result_bind_eq_ok.1 h
  cases h
  have hask : (fun id => lookup.ask .host (id, p.id)) = fun id =>
      lookup.ask .host (id, p.id) >>= fun tool => pure tool :=
    funext fun id => (Traced.bind_pure _).symm
  rw [hask] at hfound
  obtain ⟨answers, hanswers, rfl, -⟩ := Service.exists_answers hfound
  have hlength := Nat.le_of_eq (hanswers.length_eq.trans (List.length_map _))
  have htools : p.toolIds.zipWith (fun _ tool => tool) answers = answers := by
    have hsnd := List.map_snd_zip hlength
    rwa [List.zip, List.map_zipWith] at hsnd
  rw [htools]
  exact ⟨rfl, answers, hanswers, rfl⟩

end InstancePlan

/-! ## Rendering -/

namespace Editor

/-- Every tool is loaded; that is all for an instance of which nothing is displayed. Then come the
routes for files, those for suggestions, and the permissions. -/
def renderCalls (e : Editor) : List Call.Planned :=
  e.inst.tools.map (fun tool => tool.load.planned ()) ++
    if e.inst.mode = .scriptOnly then []
    else
      ["editor.file.upload", "editor.file.source", "editor.file.download", "editor.file.destroy",
        "editor.hashTag", "editor.mention"].map (fun name => e.host.route.planned name.toList) ++
      ["html", "tool", "upload"].map fun ability =>
        e.host.allows.planned (ability.toList, "editor.".toList ++ e.inst.id)

theorem follows_loadTools (i : Instance) :
    Follows (i.tools.map fun tool => tool.load.planned ()) i.loadTools :=
  follows_bind_pure (follows_forEach (fun _ => follows_ask _ _) i.tools) _

theorem follows_routes (host : Host) (names : List (Text × Text)) :
    Follows (names.map fun x => host.route.planned x.2) (Options.routes host names) :=
  follows_bind_pure (follows_forEach (fun _ => follows_bind_pure (follows_ask _ _) _) names) _

theorem follows_permissions (host : Host) (scope : Text) :
    Follows (Options.abilities.map fun ability => host.allows.planned (ability, scope))
      (Options.permissions host scope) :=
  follows_bind_pure
    (follows_forEach (fun _ => follows_bind_pure (follows_ask _ _) _) Options.abilities) _

theorem follows_options (e : Editor) :
    Follows (Options.fileRoutes.map (fun x => e.host.route.planned x.2) ++
      (Options.suggestionRoutes.map (fun x => e.host.route.planned x.2) ++
        Options.abilities.map fun ability =>
          e.host.allows.planned (ability, Instance.scopeOf e.inst.id))) e.options := by
  refine follows_bind_pure ?_ _
  refine follows_bind (follows_routes _ _) fun upload => ?_
  refine follows_bind (follows_routes _ _) fun suggestion => ?_
  exact follows_bind_pure (follows_permissions _ _) _

theorem isScriptOnly_iff (i : Instance) : i.isScriptOnly = true ↔ i.mode = .scriptOnly := by
  rw [Instance.isScriptOnly, beq_iff_eq]

theorem follows_render (e : Editor) : Follows e.renderCalls e.render := by
  refine follows_bind (follows_loadTools e.inst) fun _ => ?_
  by_cases h : e.inst.mode = .scriptOnly
  · rw [if_pos h, if_pos ((isScriptOnly_iff _).2 h)]
    exact follows_pure []
  · rw [if_neg h, if_neg (fun hscript => h ((isScriptOnly_iff _).1 hscript))]
    exact follows_bind_pure (follows_options e) _

/-- Only where nothing is displayed there is no markup. -/
theorem render_eq_nil_iff {e : Editor} {past : History} {t : Text}
    (h : (e.render past).result = .ok t) : t = [] ↔ e.inst.mode = .scriptOnly := by
  rw [render] at h
  obtain ⟨_, -, h⟩ := result_bind_eq_ok.1 h
  rw [← isScriptOnly_iff]
  split at h
  · rename_i hscript
    cases h
    exact ⟨fun _ => hscript, fun _ => rfl⟩
  · rename_i hscript
    obtain ⟨options, -, h⟩ := result_bind_eq_ok.1 h
    cases h
    refine ⟨fun hnil => ?_, fun h => absurd h hscript⟩
    unfold Render.input at hnil
    simp at hnil

/-- Where the instances have the same id and the same tools, and both are displayed or neither
is. -/
structure SameInstance (e e' : Editor) : Prop where
  id : e'.inst.id = e.inst.id
  tools : e'.inst.toolIds = e.inst.toolIds
  scriptOnly : e'.inst.mode = .scriptOnly ↔ e.inst.mode = .scriptOnly

/-- Which calls are planned does not depend on the host. -/
theorem SameInstance.calls_eq {e e' : Editor} (h : SameInstance e e') :
    e'.renderCalls.map (·.call) = e.renderCalls.map (·.call) := by
  have hload (i : Instance) : (i.tools.map fun tool => tool.load.planned ()).map (·.call) =
      i.toolIds.map Call.load := by
    simp [Instance.toolIds, Service.planned]
  rw [renderCalls, renderCalls, List.map_append, List.map_append, hload, hload, h.tools]
  by_cases hscript : e.inst.mode = .scriptOnly
  · rw [if_pos hscript, if_pos (h.scriptOnly.2 hscript)]
  · rw [if_neg hscript, if_neg fun h' => hscript (h.scriptOnly.1 h'), h.id]
    simp [Service.planned]

end Editor

end RichContent
