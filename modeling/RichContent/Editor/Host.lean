/-
The host application as an editor sees it: routes, permissions, views, tools
and images, each of which answers or fails.

A service need not answer a question the same way twice: what it answers
depends on all the calls that were made before. So does what an editor does,
and it is told as a `Traced` result: after the calls made before, the calls
that are made, in order, and what comes of them. After a failure no more calls
are made.
-/
import RichContent.Editor.Error
import RichContent.Json.Basic

namespace RichContent

inductive Call where
  | tool (id inst : Text)
  | load (id : Text)
  | route (name : Text)
  | allows (ability scope : Text)
  | view (name : Text) (data : Json)
  | images (ids : List Text)
  | links
  | body (content : Text)

/-- Calls, the first one first. -/
abbrev History := List Call

/-- A service: a question to it is a call, which it answers knowing the calls made before. -/
structure Service {κ : Type} (call : κ → Call) (α ε : Type) where
  answer : History → κ → Except ε α

def Service.always {κ α ε : Type} {call : κ → Call} (answer : κ → Except ε α) :
    Service call α ε :=
  ⟨fun _ => answer⟩

/-! ## The services -/

structure ResolvedImage where
  key : Text
  url : Text
deriving DecidableEq, Repr

/-- What a tool tells the client editor. -/
structure ToolDescriptor where
  id : Text
  name : Option Text := none
  options : Fields := []

/-- A tool of the client editor; its assets may fail to load. -/
structure Tool where
  descriptor : ToolDescriptor
  load : Service (fun _ : Unit => .load descriptor.id) Unit Failure

abbrev ToolLookup := Service (fun (id, inst) => .tool id inst) (Option Tool) Failure

abbrev ImageResolver := Service .images (List ResolvedImage) Failure

structure Host where
  route : Service .route Text Failure
  allows : Service (fun (ability, scope) => .allows ability scope) Bool Failure
  view : Service (fun (name, data) => .view name data) Text Failure

/-! ## Calling them -/

structure Trace (α : Type) where
  calls : History
  result : Except EditorError α

/-- What is done with calls, after the calls made before. -/
def Traced (α : Type) := History → Trace α

namespace Traced

variable {α β : Type}

def ofExcept (result : Except EditorError α) : Traced α := fun _ => ⟨[], result⟩

def fail (e : EditorError) : Traced α := ofExcept (.error e)

instance : Monad Traced where
  pure a := ofExcept (.ok a)
  bind x f past :=
    match x past with
    | ⟨calls, .ok a⟩ =>
      let ⟨further, result⟩ := f a (past ++ calls)
      ⟨calls ++ further, result⟩
    | ⟨calls, .error e⟩ => ⟨calls, .error e⟩

section

variable {x : Traced α} {past : History}

@[simp] theorem pure_apply (a : α) : (pure a : Traced α) past = ⟨[], .ok a⟩ := rfl

theorem bind_of_ok {a : α} (h : (x past).result = .ok a) (f : α → Traced β) :
    (x >>= f) past = ⟨(x past).calls ++ (f a (past ++ (x past).calls)).calls,
      (f a (past ++ (x past).calls)).result⟩ := by
  simp only [bind]
  split
  · rename_i calls a' heq
    rw [heq] at h ⊢
    cases h
    rfl
  · rename_i calls e heq
    rw [heq] at h
    cases h

theorem bind_of_error {e : EditorError} (h : (x past).result = .error e) (f : α → Traced β) :
    (x >>= f) past = ⟨(x past).calls, .error e⟩ := by
  simp only [bind]
  split
  · rename_i calls a heq
    rw [heq] at h
    cases h
  · rename_i calls e' heq
    rw [heq] at h ⊢
    cases h
    rfl

end

/-- Does something for each item in turn, up to the first error. -/
def forEach (f : α → Traced β) : List α → Traced (List β)
  | [] => pure []
  | a :: rest => do
    let b ← f a
    let bs ← forEach f rest
    pure (b :: bs)

end Traced

/-- Asks a service. The call that is made is the question that is answered. -/
def Service.ask {κ α ε : Type} {call : κ → Call} (s : Service call α ε)
    (raise : ε → EditorError) (question : κ) : Traced α :=
  fun past => ⟨[call question], (s.answer past question).mapError raise⟩

end RichContent
