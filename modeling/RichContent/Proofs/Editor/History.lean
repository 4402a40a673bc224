/-
One editor over a whole run of actions.

Of what an editor has been asked before, two things are left: the files that
were attached last and the resolver that was registered first (`Editor.since`).
Everything else is as the editor was built. One action leaves what this says
(`perform_eq_since`), so a run does (`performAll_eq_since`), and an action that
fails might as well not have been asked for (`performAll_without`). Its calls
are not undone, and a service may know of them when it is asked later
(`getElem?_inTurn_performAll`).
-/
import RichContent.Editor.Session
import RichContent.Proofs.Editor.Course
import RichContent.Proofs.Editor.Payload

namespace RichContent

open Text

/-! ## Calls -/

namespace Traced

variable {α : Type}

theorem inTurn_append (past : History) (l m : List (Traced α)) :
    inTurn past (l ++ m) = inTurn past l ++
      inTurn (past ++ (inTurn past l).flatMap (·.calls)) m := by
  induction l generalizing past with
  | nil => simp [inTurn]
  | cons x l ih => simp [inTurn, ih]

theorem length_inTurn (past : History) (l : List (Traced α)) :
    (inTurn past l).length = l.length := by
  induction l generalizing past with
  | nil => rfl
  | cons x l ih => rw [inTurn, List.length_cons, List.length_cons, ih]

end Traced

/-- No tool is looked up by the call. -/
def Call.NoLookup (c : Call) : Prop := ∀ id inst, c ≠ tool id inst

section

variable (e : Editor)

theorem makes_compile (content : Text) : Traced.Makes Call.NoLookup (e.compile content) := by
  intro past
  have hstops {calls : List Call} {err : EditorError}
      (h : Compile.Stops e content past calls err) : ∀ c ∈ calls, c.NoLookup := by
    cases h <;> simp [Call.NoLookup]
  have hreaches {calls : List Call} {x : Compile.Marked} {answers : List ResolvedImage}
      (h : Compile.Reaches e content past calls x answers) : ∀ c ∈ calls, c.NoLookup := by
    cases h <;> simp [Call.NoLookup]
  have hcourse := e.course_compile content past
  generalize (e.compile content past).calls = calls, (e.compile content past).result = result
    at hcourse ⊢
  cases hcourse with
  | stops h => exact hstops h
  | body h | view h | unlisted h | listed h =>
    exact List.forall_mem_append.2 ⟨hreaches h, by simp [Call.NoLookup]⟩

theorem makes_loadTools (i : Instance) : Traced.Makes Call.NoLookup i.loadTools := by
  refine Traced.makes_bind (Traced.makes_forEach (fun t => ?_) _) fun _ => Traced.makes_pure _
  refine Traced.makes_ask ?_ t.load .host
  simp [Call.NoLookup]

theorem makes_routes (host : Host) (names : List (Text × Text)) :
    Traced.Makes Call.NoLookup (Options.routes host names) := by
  refine Traced.makes_bind (Traced.makes_forEach (fun name => ?_) _) fun _ => Traced.makes_pure _
  refine Traced.makes_bind (Traced.makes_ask ?_ _ _) fun _ => Traced.makes_pure _
  simp [Call.NoLookup]

theorem makes_permissions (host : Host) (scope : Text) :
    Traced.Makes Call.NoLookup (Options.permissions host scope) := by
  refine Traced.makes_bind (Traced.makes_forEach (fun ability => ?_) _) fun _ => Traced.makes_pure _
  refine Traced.makes_bind (Traced.makes_ask ?_ _ _) fun _ => Traced.makes_pure _
  simp [Call.NoLookup]

theorem makes_options : Traced.Makes Call.NoLookup e.options := by
  have hbase : Traced.Makes Call.NoLookup e.baseOptions :=
    Traced.makes_bind (makes_routes _ _) fun _ => Traced.makes_bind (makes_routes _ _) fun _ =>
      Traced.makes_bind (makes_permissions _ _) fun _ => Traced.makes_pure _
  exact Traced.makes_bind hbase fun _ => Traced.makes_pure _

theorem makes_render : Traced.Makes Call.NoLookup e.render := by
  refine Traced.makes_bind (makes_loadTools e.inst) fun _ => ?_
  split
  · exact Traced.makes_pure []
  · exact Traced.makes_bind (makes_options e) fun _ => Traced.makes_pure _

/-- The tools of an editor are not looked up again. -/
theorem makes_perform (action : Editor.Action) :
    Traced.Makes Call.NoLookup (e.perform action).2 := by
  cases action with
  | compile content => exact Traced.makes_map _ (makes_compile e content)
  | options => exact Traced.makes_map _ (makes_options e)
  | render => exact Traced.makes_map _ (makes_render e)
  | loadTools => exact Traced.makes_map _ (makes_loadTools e.inst)
  | setFiles files => exact Traced.makes_pure _
  | registerImages resolver =>
    rw [Editor.perform]
    split
    · exact Traced.makes_pure _
    · exact Traced.makes_ofExcept _

end

/-! ## What is left of a run -/

namespace Editor

/-- The files that an action attaches. -/
def Action.files? : Action → Option (List AttachedFile)
  | setFiles files => some files
  | _ => none

/-- The resolver that an action wants to register. -/
def Action.resolver? : Action → Option ImageResolver
  | registerImages resolver => some resolver
  | _ => none

/-- The files attached last; without any, those that the editor was built with. -/
def filesSince (e : Editor) (actions : List Action) : List AttachedFile :=
  (actions.filterMap Action.files?).getLast?.getD e.inst.files

/-- The resolver registered first, which may be one that the editor was built with. -/
def resolverSince (e : Editor) (actions : List Action) : Option ImageResolver :=
  e.images.resolver?.or (actions.filterMap Action.resolver?).head?

/-- The editor as it was built, with these files and this resolver. -/
def since (e : Editor) (actions : List Action) : Editor :=
  { e with
    inst := { e.inst with files := e.filesSince actions }
    images := ⟨e.resolverSince actions⟩ }

variable (e : Editor)

theorem filesSince_append (l m : List Action) :
    e.filesSince (l ++ m) = (e.since l).filesSince m := by
  simp only [filesSince, since, List.filterMap_append, List.getLast?_append]
  cases (m.filterMap Action.files?).getLast? <;> rfl

theorem resolverSince_append (l m : List Action) :
    e.resolverSince (l ++ m) = (e.since l).resolverSince m := by
  simp only [resolverSince, since, List.filterMap_append, List.head?_append, Option.or_assoc]

theorem since_append (l m : List Action) : e.since (l ++ m) = (e.since l).since m := by
  simp only [since, filesSince_append, resolverSince_append]

/-- What one action leaves: other files, or a resolver where there was none. -/
theorem perform_eq_since (action : Action) : (e.perform action).1 = e.since [action] := by
  cases action with
  | compile | options | render | loadTools | setFiles =>
    simp [perform, since, filesSince, resolverSince, Action.files?, Action.resolver?, setFiles]
  | registerImages resolver =>
    obtain ⟨inst, format, markers, host, ⟨resolver?⟩⟩ := e
    cases resolver? <;> rfl

theorem performAll_cons (action : Action) (rest : List Action) :
    e.performAll (action :: rest) = (((e.since [action]).performAll rest).1,
      (e.perform action).2 :: ((e.since [action]).performAll rest).2) := by
  rw [← perform_eq_since]
  rfl

/-- What a run leaves. -/
theorem performAll_eq_since (actions : List Action) :
    (e.performAll actions).1 = e.since actions := by
  induction actions generalizing e with
  | nil => simp [performAll, since, filesSince, resolverSince]
  | cons action rest ih => rw [performAll_cons, ih, ← since_append, List.singleton_append]

theorem performAll_append (l m : List Action) :
    e.performAll (l ++ m) = (((e.since l).performAll m).1,
      (e.performAll l).2 ++ ((e.since l).performAll m).2) := by
  induction l generalizing e with
  | nil =>
    have hnil : e.since [] = e := (performAll_eq_since e []).symm
    rw [hnil]
    rfl
  | cons action l ih =>
    rw [List.cons_append, performAll_cons, performAll_cons, ih, ← since_append,
      List.singleton_append, List.cons_append]

theorem length_performAll (actions : List Action) :
    (e.performAll actions).2.length = actions.length := by
  induction actions generalizing e with
  | nil => rfl
  | cons action rest ih => rw [performAll_cons, List.length_cons, List.length_cons, ih]

theorem getElem?_performAll (before : List Action) (action : Action) (later : List Action) :
    (e.performAll (before ++ action :: later)).2[before.length]? =
      some ((e.since before).perform action).2 := by
  rw [performAll_append, performAll_cons, ← length_performAll e before, List.getElem?_append_right
    (Nat.le_refl _), Nat.sub_self, List.getElem?_cons_zero]

/-- An action is answered after the calls of the actions before it. -/
theorem getElem?_inTurn_performAll (past : History) (before : List Action) (action : Action)
    (later : List Action) :
    (Traced.inTurn past (e.performAll (before ++ action :: later)).2)[before.length]? =
      some (((e.since before).perform action).2
        (past ++ (Traced.inTurn past (e.performAll before).2).flatMap (·.calls))) := by
  rw [performAll_append, performAll_cons, Traced.inTurn_append, ← length_performAll e before,
    ← Traced.length_inTurn past, List.getElem?_append_right (Nat.le_refl _), Nat.sub_self]
  rfl

/-! ## Actions that leave nothing -/

variable {e}

/-- An action that attaches no files and registers no resolver leaves nothing. -/
theorem since_of_asks {action : Action} (h : action.files? = none ∧ action.resolver? = none) :
    e.since [action] = e := by
  rw [since, filesSince, resolverSince, List.filterMap_cons_none h.1, List.filterMap_cons_none h.2]
  simp

/-- Neither does an action that fails. -/
theorem since_of_error {action : Action} {past : History} {err : EditorError}
    (h : ((e.perform action).2 past).result = .error err) : e.since [action] = e := by
  cases action with
  | compile | options | render | loadTools => exact since_of_asks ⟨rfl, rfl⟩
  | setFiles files => cases h
  | registerImages resolver =>
    rw [← perform_eq_since]
    rw [perform] at h ⊢
    split at h
    · cases h
    · rfl

/-- A run without an action that leaves nothing comes to the same, and the other actions are
answered as they were. -/
theorem performAll_without {before : List Action} {action : Action}
    (h : (e.since before).since [action] = e.since before) (later : List Action) :
    e.performAll (before ++ later) =
      ((e.performAll (before ++ action :: later)).1,
        (e.performAll (before ++ action :: later)).2.eraseIdx before.length) := by
  rw [performAll_append, performAll_append, performAll_cons, h, ← length_performAll e before,
    List.eraseIdx_append_of_length_le (Nat.le_refl _), Nat.sub_self, List.eraseIdx_cons_zero]

/-! ## Each action of a run -/

open Compile

/-- Which nodes are found does not depend on what the editor has been asked before. -/
theorem finds_since {content : Text} {past : History} {x : Marked} (h : Finds e content past x)
    (before : List Action) : Finds (e.since before) content past x := by
  cases h with
  | intro hh hm hl hi => exact .intro hh hm hl hi

/-- How an action is answered that comes after others. -/
structure Informed (e : Editor) (before : List Action) (action : Action) (answer : Traced Answer) :
    Prop where
  /-- As if the editor had been built with the files and the resolver that it has by then. -/
  asked : answer = ((e.since before).perform action).2
  noLookup : Traced.Makes Call.NoLookup answer
  compiled : ∀ content past, action = .compile content → ∃ calls result,
    answer past = ⟨calls, result.map .markup⟩ ∧ Course (e.since before) content past calls result
  listed : ∀ past payload, action = .options → (answer past).result = .ok (.options payload) →
    payload.lookup "files".toList = some (.arr ((e.filesSince before).map (·.json)))
  registered : ∀ resolver, action = .registerImages resolver → e.resolverSince before = none →
    answer = pure .done ∧ e.resolverSince (before ++ [action]) = some resolver
  /-- A resolver that comes later is turned down and changes nothing. -/
  refused : ∀ resolver, action = .registerImages resolver → e.resolverSince before ≠ none →
    answer = Traced.fail (.configuration .secondResolver) ∧
      e.since (before ++ [action]) = e.since before
  /-- There are images to resolve and no resolver has been registered so far. -/
  unresolved : ∀ content past x, action = .compile content → Finds e content past x →
    x.images ≠ [] → e.images.resolver? = none →
    (∀ resolver, .registerImages resolver ∉ before) →
    answer past = ⟨[.links], .error (.configuration .noResolver)⟩

theorem resolverSince_eq_none {before : List Action} (h : e.images.resolver? = none)
    (hbefore : ∀ resolver, .registerImages resolver ∉ before) : e.resolverSince before = none := by
  have hnone : before.filterMap Action.resolver? = [] := by
    refine List.filterMap_eq_nil_iff.2 fun action hmem => ?_
    cases action with
    | registerImages resolver => exact absurd hmem (hbefore resolver)
    | _ => rfl
  rw [resolverSince, h, hnone]
  rfl

theorem perform_registerImages (e : Editor) (resolver : ImageResolver) :
    (e.images.resolver? = none → (e.perform (.registerImages resolver)).2 = pure .done) ∧
    (e.images.resolver? ≠ none → (e.perform (.registerImages resolver)).2 =
      Traced.fail (.configuration .secondResolver)) := by
  obtain ⟨inst, format, markers, host, ⟨resolver?⟩⟩ := e
  cases resolver? with
  | none => exact ⟨fun _ => rfl, fun h => absurd rfl h⟩
  | some first => exact ⟨by rintro ⟨⟩, fun _ => rfl⟩

theorem informed (e : Editor) (before : List Action) (action : Action) :
    Informed e before action ((e.since before).perform action).2 where
  asked := rfl
  noLookup := makes_perform _ action
  compiled content past h := by
    subst h
    exact ⟨_, _, Traced.map_apply _ _, (e.since before).course_compile content past⟩
  listed past payload h hresult := by
    subst h
    have hperform : ((e.since before).perform .options).2 past = _ := Traced.map_apply _ _
    rw [hperform] at hresult
    cases hoptions : ((e.since before).options past).result with
    | error err =>
      rw [hoptions] at hresult
      cases hresult
    | ok payload' =>
      rw [hoptions] at hresult
      cases hresult
      exact (Options.own_options hoptions).files
  registered resolver h hnone := by
    subst h
    refine ⟨((e.since before).perform_registerImages resolver).1 hnone, ?_⟩
    rw [resolverSince_append, resolverSince]
    exact congrArg (·.or (some resolver)) hnone
  refused resolver h hsome := by
    subst h
    have hfail := ((e.since before).perform_registerImages resolver).2 hsome
    refine ⟨hfail, ?_⟩
    have herror : (((e.since before).perform (.registerImages resolver)).2 []).result =
        .error (.configuration .secondResolver) := by
      rw [hfail]
      rfl
    rw [since_append]
    exact since_of_error herror
  unresolved content past x h hx hne hr hbefore := by
    subst h
    have hstops : Stops (e.since before) content past [.links] (.configuration .noResolver) :=
      .noResolver (finds_since hx before) hne (resolverSince_eq_none hr hbefore)
    have hperform : ((e.since before).perform (.compile content)).2 past = _ :=
      Traced.map_apply _ _
    rw [hperform, compile_of_course (.stops hstops)]
    rfl

end Editor

open Compile Editor

/-- **An editor remembers the files attached last and the resolver registered first, and nothing
else.** Its tools, configuration, arguments and markers stay, every action of a run is answered as
if the editor had been built with these files and this resolver, and an action that only asks or
that fails has no effect on the others. -/
theorem Editor.performAll_remembers (e : Editor) (before : List Action) (action : Action)
    (later : List Action) :
    (e.performAll before).1 = e.since before ∧
    ((e.performAll before).1.inst.tools = e.inst.tools ∧
      (e.performAll before).1.inst.config = e.inst.config ∧
      (e.performAll before).1.inst.mode = e.inst.mode ∧
      (e.performAll before).1.markers = e.markers) ∧
    ∃ answer, (e.performAll (before ++ action :: later)).2[before.length]? = some answer ∧
      (∀ past, (Traced.inTurn past (e.performAll (before ++ action :: later)).2)[before.length]? =
        some (answer (past ++ (Traced.inTurn past (e.performAll before).2).flatMap (·.calls)))) ∧
      Informed e before action answer ∧
      ((action.files? = none ∧ action.resolver? = none) ∨
          (∃ past err, (answer past).result = .error err) →
        e.performAll (before ++ later) = ((e.performAll (before ++ action :: later)).1,
          (e.performAll (before ++ action :: later)).2.eraseIdx before.length)) := by
  have hsince := performAll_eq_since e before
  refine ⟨hsince, by rw [hsince]; exact ⟨rfl, rfl, rfl, rfl⟩, _,
    getElem?_performAll e before action later,
    fun past => getElem?_inTurn_performAll e past before action later,
    informed e before action, ?_⟩
  rintro (hasks | ⟨past, err, herr⟩)
  · exact performAll_without (since_of_asks hasks) later
  · exact performAll_without (since_of_error herr) later

/-- A compile before there is a resolver, a second resolver, and files that are attached in between:
the first compile and the second resolver fail and leave nothing. -/
theorem Editor.performAll_remembers_failures :
    let host : Host := ⟨.always .ok, .always fun _ => .ok true, .always fun _ => .ok ['V']⟩
    let e : Editor :=
      { Editor.new (InstancePlan.buildWithoutTools { id := [] }) .html host with
        markers := { imageClass := ['i'], imageIdentifier := ['d'] } }
    let first : ImageResolver := .always fun _ => .ok [⟨['1'], ['u']⟩]
    let second : ImageResolver := .always fun _ => .ok [⟨['1'], ['v']⟩]
    let file : AttachedFile := { id := ['f'], filename := ['n'] }
    let early : Action := .compile "<img class=i d=1>".toList
    let run : List Action :=
      [early, .registerImages first, .setFiles [file], .registerImages second, .options]
    let answers := Traced.inTurn [] (e.performAll run).2
    (∃ x, Finds e "<img class=i d=1>".toList [] x ∧ x.images ≠ []) ∧
      answers[0]? = some ⟨[.links], .error (.configuration .noResolver)⟩ ∧
      answers[3]? = some ⟨[], .error (.configuration .secondResolver)⟩ ∧
      (∃ payload, answers[4]?.map (·.result) = some (.ok (.options payload)) ∧
        payload.lookup "files".toList = some (.arr [file.json])) ∧
      (e.performAll run).1.images.resolver? = some first ∧
      e.performAll (run.eraseIdx 0) = ((e.performAll run).1, (e.performAll run).2.eraseIdx 0) ∧
      e.performAll (run.eraseIdx 3) = ((e.performAll run).1, (e.performAll run).2.eraseIdx 3) := by
  intro host e first second file early run answers
  have hh : Selector.parse e.markers.hashtagSelector =
      .ok [[⟨none, [.cls "__xe_hashtag".toList]⟩]] := by decide +kernel
  have hm : Selector.parse e.markers.mentionSelector =
      .ok [[⟨none, [.cls "__xe_mention".toList, .attr "data-id".toList none]⟩]] := by
    decide +kernel
  have hi : Selector.parse e.markers.imageSelector =
      .ok [[⟨some (.named "img".toList), [.cls ['i'], .attr ['d'] none]⟩]] := by decide +kernel
  have hfinds : Finds e "<img class=i d=1>".toList [] _ := .intro hh hm rfl hi
  generalize hx : Marked.of (Document.parse "<img class=i d=1>".toList) _ _ _ _ = x at hfinds
  have himages : x.images.map (·.id) = [0] := by
    rw [← hx]
    decide +kernel
  have hne : x.images ≠ [] := by
    intro hnil
    rw [hnil] at himages
    cases himages
  obtain ⟨-, -, answer₀, -, h₀, hinformed₀, hwithout₀⟩ := Editor.performAll_remembers e [] early
    [.registerImages first, .setFiles [file], .registerImages second, .options]
  obtain ⟨-, -, answer₃, -, h₃, hinformed₃, hwithout₃⟩ := Editor.performAll_remembers e
    [early, .registerImages first, .setFiles [file]] (.registerImages second) [.options]
  obtain ⟨-, -, answer₄, -, h₄, hinformed₄, -⟩ := Editor.performAll_remembers e
    [early, .registerImages first, .setFiles [file], .registerImages second] .options []
  obtain ⟨hsince, -, -⟩ := Editor.performAll_remembers e run .options []
  have hearly := hinformed₀.unresolved _ [] x rfl hfinds hne rfl
    fun _ h => absurd h List.not_mem_nil
  have hlate := (hinformed₃.refused second rfl (by rintro ⟨⟩)).1
  have hpayload : ∀ past, ∃ payload, (answer₄ past).result = .ok (.options payload) := by
    rw [hinformed₄.asked]
    exact fun past => ⟨_, rfl⟩
  obtain ⟨payload, hpayload⟩ := hpayload _
  refine ⟨⟨x, hfinds, hne⟩, (h₀ []).trans (congrArg some hearly), ?_, ⟨payload, ?_, ?_⟩, ?_, ?_, ?_⟩
  · rw [hlate] at h₃
    exact h₃ []
  · rw [show answers[4]? = some (answer₄ _) from h₄ [], Option.map_some, hpayload]
  · exact hinformed₄.listed _ payload rfl hpayload
  · rw [hsince]
    rfl
  · exact hwithout₀ (.inl ⟨rfl, rfl⟩)
  · exact hwithout₃ (.inr ⟨[], _, by rw [hlate]; rfl⟩)

end RichContent
