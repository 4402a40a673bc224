/-
The list of the attached files, as it is written and read back.

The view reads from its data the files that have been put in
(`files?_filesData`), so it never fails. Every file is written as one element
(`item_eq`): its id is quoted, its name is escaped, and a size has no character
that means something in markup. So the pieces of one item are the same whatever
stands behind it, and the list is read item by item (`grows_items`).
-/
import RichContent.Proofs.Editor.Course
import RichContent.Proofs.Editor.Files
import RichContent.Proofs.Markup.Piece
import RichContent.Standalone.Tables

namespace RichContent

open Text

/-! ## Sizes -/

/-- No character of the text means anything in markup. -/
def Text.Plain (t : Text) : Prop := ∀ c ∈ t, c ≠ '<' ∧ c ≠ '&'

instance : DecidablePred Text.Plain := fun t =>
  decidable_of_iff (t.all (fun c => c ≠ '<' ∧ c ≠ '&') = true) List.all_iff_forall_prop

theorem Text.Plain.append {s t : Text} (hs : Plain s) (ht : Plain t) : Plain (s ++ t) :=
  List.forall_mem_append.2 ⟨hs, ht⟩

theorem Text.plain_numeral (n : Nat) : Plain (numeral n) := by
  intro c hc
  have hdigit : c.isDigit = true := Nat.isDigit_of_mem_toDigits (by decide) (by decide) hc
  constructor
  · rintro rfl
    cases hdigit
  · rintro rfl
    cases hdigit

namespace FileSize

theorem plain_printTenths (n : Nat) : Plain (printTenths n) :=
  (plain_numeral _).append (List.forall_mem_cons.2 ⟨by decide, plain_numeral _⟩)

theorem plain_inUnit (bytes scale : Nat) {names : List Text} (h : ∀ name ∈ names, Plain name) :
    Plain (inUnit bytes scale names) := by
  have hsize (tenths : Nat) {name : Text} (hname : Plain name) :
      Plain (printTenths tenths ++ ' ' :: name) :=
    (plain_printTenths tenths).append (List.forall_mem_cons.2 ⟨by decide, hname⟩)
  induction names generalizing scale with
  | nil => exact List.forall_mem_nil _
  | cons name names ih =>
    obtain ⟨hname, hnames⟩ := List.forall_mem_cons.1 h
    cases names with
    | nil => exact hsize _ hname
    | cons name' names =>
      rw [inUnit]
      split
      · exact hsize _ hname
      · exact ih _ hnames

theorem plain_describe (bytes : Nat) : Plain (describe bytes) := by
  rw [describe]
  split
  · exact (plain_numeral _).append (by decide)
  · exact plain_inUnit _ _ (by decide)

end FileSize

/-! ## Elements in elements -/

namespace Piece

/-- A run of text, which is no piece if there is nothing in it. -/
def run (s : Slice) : List Piece := if s.text = [] then [] else [.text s]

theorem all_run (start : Nat) {s r : Text} (hless : ∀ c ∈ s, c ≠ '<')
    (hr : r = [] ∨ ∃ t, r = '<' :: t) :
    all start (s ++ r) = run ⟨start, s⟩ ++ all (start + s.utf8Size) r := by
  by_cases hs : s = []
  · subst hs
    rfl
  · rw [all_text start hs hless hr, run, if_neg hs]
    rfl

end Piece

namespace Forest

/-- What is grown from a run of pieces, and how it ends. -/
structure Grows (opened : List Text) (pieces : List Piece) (f : Forest) (ending : Ending) :
    Prop where
  forest : (grow opened pieces).forest = f
  ending : (grow opened pieces).ending = ending

namespace Grows

variable {opened : List Text} {rest : List Piece} {f children : Forest} {ending : Ending}

theorem source : Grows opened [] .nil .source := by
  constructor <;> rw [grow]

theorem endTag {name : Text} (hname : name ∈ opened) (s : Slice) (rest : List Piece) :
    Grows opened (.closing name s :: rest) .nil (.endTag name s rest) := by
  constructor <;> rw [grow, if_pos hname]

/-- Text in an element, and the end tag of the element. -/
theorem text (opened : List Text) (name : Text) (s closing : Slice) (rest : List Piece) :
    Grows (name :: opened) (Piece.run s ++ .closing name closing :: rest) (.verbatim s)
      (.endTag name closing rest) := by
  by_cases hs : s.text = []
  · rw [Piece.run, if_pos hs, Forest.verbatim, if_pos hs]
    exact endTag List.mem_cons_self closing rest
  · rw [Piece.run, if_neg hs, Forest.verbatim, if_neg hs]
    constructor
    · exact congrArg Growth.forest (grow_text_closing opened name s closing rest)
    · exact congrArg Growth.ending (grow_text_closing opened name s closing rest)

/-- An element that is closed in front of what follows it. -/
theorem element {tag : StartTag} {opening closing : Slice} {inside : List Piece}
    (hinside : Grows (tag.name :: opened) inside children (.endTag tag.name closing rest))
    (hrest : Grows opened rest f ending) :
    Grows opened (.opening tag opening :: inside)
      (.element tag opening children (some closing) f) ending := by
  obtain ⟨hforest, hending⟩ := hinside
  have hgrow : (grow opened (.opening tag opening :: inside)).forest =
        .element tag opening children (some closing) (grow opened rest).forest ∧
      (grow opened (.opening tag opening :: inside)).ending = (grow opened rest).ending := by
    rw [grow]
    generalize grow (tag.name :: opened) inside = g at hforest hending
    obtain ⟨forest, ending, bound⟩ := g
    subst hforest hending
    simp
  exact ⟨hgrow.1.trans (by rw [hrest.forest]), hgrow.2.trans hrest.ending⟩

end Grows

end Forest

/-! ## Items -/

namespace FileListView

/-- A size in parentheses, if there is one. -/
def sizeText : Option Nat → Text
  | some n => " (".toList ++ FileSize.describe n ++ [')']
  | none => []

/-- What a reader sees of a file: its name, and its size if it has one. -/
def label (f : AttachedFile) : Text := f.filename ++ sizeText f.size

/-- What is written of a file between its tags. -/
def content (f : AttachedFile) : Text := escape f.filename ++ sizeText f.size

/-- A run of siblings that are an item for each of the files, in their order. An item is an element
that has the id of the file and reads as the name with the size. -/
inductive Items (d : Document) : Forest → List AttachedFile → Prop
  | nil : Items d .nil []
  | cons {f : AttachedFile} {files : List AttachedFile} {tag : StartTag} {opening closing : Slice}
      {children rest : Forest} :
    tag.name = "li".toList → tag.attributes = [⟨"data-id".toList, some f.id⟩] →
    (∀ n ancestors, d.textOf ⟨n, ancestors, .element tag opening children (some closing)⟩ = label f) →
    Items d rest files → Items d (.element tag opening children (some closing) rest) (f :: files)

/-- The attributes of an item. -/
def itemAttributes (f : AttachedFile) : List (Char × Attribute) :=
  Attribute.quoted [("data-id".toList, f.id)]

/-- The attributes of the list. -/
def listAttributes : List (Char × Attribute) :=
  Attribute.quoted [("class".toList, "xe-editor-files".toList)]

variable (f : AttachedFile)

theorem item_eq : item f = StartTag.written "li".toList (itemAttributes f) false ++
    (content f ++ Lexeme.endTagText "li".toList) := by
  unfold item content sizeText
  cases f.size <;>
    simp [StartTag.written, itemAttributes, Attribute.quoted, Attribute.writtenAll, Attribute.written,
      Lexeme.endTagText]

theorem list_eq (files : List AttachedFile) :
    list files = StartTag.written "ul".toList listAttributes false ++
      (files.flatMap item ++ Lexeme.endTagText "ul".toList) := by
  have hclass : escape "xe-editor-files".toList = "xe-editor-files".toList := by decide
  unfold list
  simp only [StartTag.written, listAttributes, Attribute.quoted, Attribute.writtenAll,
    Attribute.written, Lexeme.endTagText, List.map_cons, List.flatMap_cons, Option.elim_some, hclass]
  simp

theorem plain_sizeText (size : Option Nat) : Plain (sizeText size) := by
  cases size with
  | none => exact List.forall_mem_nil _
  | some n => exact (Plain.append (by decide) (FileSize.plain_describe n)).append (by decide)

theorem ne_of_mem_content : ∀ c ∈ content f, c ≠ '<' :=
  List.forall_mem_append.2
    ⟨fun _ hc => (ne_of_mem_escape hc).1, fun c hc => (plain_sizeText f.size c hc).1⟩

theorem decode_content : decode (content f) = label f := by
  rw [content, decode_escape_append, decode_eq_self fun c hc => (plain_sizeText f.size c hc).2, label]

theorem hasContent_li : Piece.HasContent ('l' :: "i".toList) :=
  ⟨by decide, by decide, by decide, List.all_iff_forall_prop.1 (by decide)⟩

theorem hasContent_ul : Piece.HasContent ('u' :: "l".toList) :=
  ⟨by decide, by decide, by decide, List.all_iff_forall_prop.1 (by decide)⟩

theorem writable_item : StartTag.Writable 'l' "i".toList (itemAttributes f) :=
  StartTag.writable_quoted (by decide) (List.all_iff_forall_prop.1 (by decide))
    (show ∀ name ∈ ["data-id".toList], Attribute.WritableName name by decide)
    (show ["data-id".toList].Nodup by decide)

theorem writable_list : StartTag.Writable 'u' "l".toList listAttributes :=
  StartTag.writable_quoted (by decide) (List.all_iff_forall_prop.1 (by decide)) (by decide) (by decide)

/-- The pieces of an item, whatever stands behind it. -/
theorem all_item (start : Nat) (r : Text) : ∃ opening stop closing behind,
    Piece.all start (item f ++ r) =
      .opening ⟨"li".toList, [⟨"data-id".toList, some f.id⟩], false⟩ opening ::
        (Piece.run ⟨stop, content f⟩ ++ .closing "li".toList closing :: Piece.all behind r) := by
  have htag := Piece.all_startTag start (writable_item f) hasContent_li
    (content f ++ (Lexeme.endTagText ('l' :: "i".toList) ++ r))
  have htext (n : Nat) := Piece.all_run n (ne_of_mem_content f)
    (r := Lexeme.endTagText ('l' :: "i".toList) ++ r) (.inr ⟨_, rfl⟩)
  have hend (n : Nat) := Piece.all_endTag n (writable_item f).letter hasContent_li.plain r
  rw [htext, hend, hasContent_li.small] at htag
  rw [item_eq, List.append_assoc, List.append_assoc]
  exact ⟨_, _, _, _, htag⟩

theorem textOf_item {d : Document} (hd : d.replacements = []) (n : NodeId)
    (ancestors : List (NodeId × StartTag)) (tag : StartTag) (opening closing : Slice) (start : Nat) :
    d.textOf ⟨n, ancestors,
      .element tag opening (Forest.verbatim ⟨start, content f⟩) (some closing)⟩ = label f := by
  have hnone (id : NodeId) : d.replacement? id = none := by
    rw [Document.replacement?, hd]
    rfl
  simp only [Document.textOf, Node.write_element, hnone, Forest.write_verbatim _ _ hnone,
    decode_content]
  simp [View.plain]

/-- **What is written of the files, and the end tag of the list, is read as an item for each of
them.** -/
theorem grows_items {d : Document} (hd : d.replacements = []) (start : Nat)
    (files : List AttachedFile) : ∃ items closing,
      Forest.Grows ["ul".toList]
        (Piece.all start (files.flatMap item ++ Lexeme.endTagText "ul".toList)) items
        (.endTag "ul".toList closing []) ∧
      Items d items files := by
  induction files generalizing start with
  | nil =>
    have hend := Piece.all_endTag start writable_list.letter hasContent_ul.plain []
    rw [List.append_nil, Piece.all_nil, hasContent_ul.small] at hend
    have hgrows := Forest.Grows.endTag (List.mem_singleton_self ('u' :: "l".toList))
      ⟨start, Lexeme.endTagText ('u' :: "l".toList)⟩ []
    rw [← hend] at hgrows
    exact ⟨_, _, hgrows, .nil⟩
  | cons f files ih =>
    obtain ⟨opening, stop, closing, behind, hpieces⟩ :=
      all_item f start (files.flatMap item ++ Lexeme.endTagText "ul".toList)
    obtain ⟨items, last, hgrows, hitems⟩ := ih behind
    rw [List.flatMap_cons, List.append_assoc, hpieces]
    exact ⟨_, last, .element (.text _ _ _ closing _) hgrows,
      .cons rfl rfl (fun n ancestors => textOf_item f hd n ancestors _ _ _ _) hitems⟩

/-! ## The list -/

/-- The view reads from its data the files that have been put in, if each of them is read from what
is written of it. -/
theorem files?_filesData {files : List AttachedFile}
    (h : ∀ f ∈ files, AttachedFile.read? f.json = some f) :
    files? (Compile.filesData files) = some files := by
  have hmap : (files.map (·.json)).mapM AttachedFile.read? = some files := by
    rw [List.mapM_map]
    induction files with
    | nil => rfl
    | cons f files ih =>
      obtain ⟨hf, hfiles⟩ := List.forall_mem_cons.1 h
      rw [List.mapM_cons, ih hfiles, Function.comp_apply, hf]
      rfl
  exact hmap

/-- **The list is one element, and in it is an item for each of the files.** -/
theorem parse_list (files : List AttachedFile) : ∃ opening items closing,
    Forest.parse (list files) =
      .element ⟨"ul".toList, [⟨"class".toList, some "xe-editor-files".toList⟩], false⟩ opening items
        (some closing) .nil ∧
      Items (Document.parse (list files)) items files := by
  obtain ⟨items, closing, hgrows, hitems⟩ :=
    grows_items (d := Document.parse (list files)) rfl
      (0 + (StartTag.written ('u' :: "l".toList) listAttributes false).utf8Size) files
  have htag := Piece.all_startTag 0 writable_list hasContent_ul
    (files.flatMap item ++ Lexeme.endTagText "ul".toList)
  refine ⟨⟨0, StartTag.written ('u' :: "l".toList) listAttributes false⟩, items, closing, ?_, hitems⟩
  rw [Forest.parse, list_eq]
  exact (congrArg (fun ps => (Forest.grow [] ps).forest) htag).trans
    (Forest.Grows.element hgrows .source).forest

/-- **Attached files are written as they have been read, and the view always shows them.** What is
read of an object is written as the same object, only without a kind or a size that is null, and is
read again as the same file. And of files that have been read the view makes one list with an item
for each of them. -/
theorem files_shown_as_read :
    (∀ (fields : Fields) (f : AttachedFile), Table.Ordered fields →
      AttachedFile.read? (Json.obj fields) = some f →
        f.json = .obj (fields.filter fun x => !AttachedFile.isVoid x) ∧
        AttachedFile.read? f.json = some f) ∧
    ∀ files : List AttachedFile, (∀ f ∈ files, f.IsRead) →
      render Compile.filesView (Compile.filesData files) = .ok (list files) ∧
      (∀ (host : Host) (past : History),
        host.view.answer past (Compile.filesView, Compile.filesData files) =
          render Compile.filesView (Compile.filesData files) → files ≠ [] →
        Compile.fileList host files past =
          ⟨[.view Compile.filesView (Compile.filesData files)], .ok (list files)⟩) ∧
      ∃ opening items closing,
        Forest.parse (list files) =
          .element ⟨"ul".toList, [⟨"class".toList, some "xe-editor-files".toList⟩], false⟩ opening items
            (some closing) .nil ∧
        Items (Document.parse (list files)) items files := by
  refine ⟨fun fields f hfields hread => ?_, fun files hfiles => ?_⟩
  · exact AttachedFile.json_of_read hfields hread
  · have hread : files? (Compile.filesData files) = some files :=
      files?_filesData fun f hf => (hfiles f hf).read?_json
    have hrender : render Compile.filesView (Compile.filesData files) = .ok (list files) := by
      rw [render, if_pos rfl, hread]
    refine ⟨hrender, fun host past hview hne => ?_, parse_list files⟩
    rw [Compile.fileList_of_ne_nil hne]
    exact Service.ask_of_ok (hview.trans hrender) _

/-- Markup and a reference in the texts, a kind that is null, a field without a meaning, and a file
without any characters in its texts. -/
theorem files_shown_as_read_hostile :
    let fields : Fields := [("extra".toList, .arr [.null]), ("filename".toList, .str "<b>&amp;\"'".toList),
      ("id".toList, .str "\"><li>".toList), ("mime".toList, .null), ("size".toList, .int 1536)]
    let f : AttachedFile :=
      ⟨"\"><li>".toList, "<b>&amp;\"'".toList, none, some 1536, [("extra".toList, .arr [.null])]⟩
    let fields' : Fields := [("filename".toList, .str []), ("id".toList, .str [])]
    let f' : AttachedFile := ⟨[], [], none, none, []⟩
    let host : Host := .ofTables {} []
    let html := ("<ul class=\"xe-editor-files\"><li data-id=\"&quot;&gt;&lt;li&gt;\">" ++
      "&lt;b&gt;&amp;amp;&quot;&#39; (1.5 KB)</li><li data-id=\"\"></li></ul>").toList
    (Table.Ordered fields ∧ AttachedFile.read? (Json.obj fields) = some f) ∧
    (Table.Ordered fields' ∧ AttachedFile.read? (Json.obj fields') = some f') ∧
    f.json = .obj [("extra".toList, .arr [.null]), ("filename".toList, .str "<b>&amp;\"'".toList),
      ("id".toList, .str "\"><li>".toList), ("size".toList, .int 1536)] ∧
    AttachedFile.read? f.json = some f ∧
    (∀ g ∈ [f, f'], g.IsRead) ∧ list [f, f'] = html ∧
    render Compile.filesView (Compile.filesData [f, f']) = .ok html ∧
    ((∀ past name data, host.view.answer past (name, data) = render name data) ∧ [f, f'] ≠ [] ∧
      Compile.fileList host [f, f'] [] =
        ⟨[.view Compile.filesView (Compile.filesData [f, f'])], .ok html⟩) ∧
    ∃ opening items closing, Forest.parse html =
      .element ⟨"ul".toList, [⟨"class".toList, some "xe-editor-files".toList⟩], false⟩ opening items
        (some closing) .nil ∧
      Items (Document.parse html) items [f, f'] := by
  intro fields f fields' f' host html
  obtain ⟨hround, hshown⟩ := files_shown_as_read
  have hordered : Table.Ordered fields := by unfold Table.Ordered; decide
  have hordered' : Table.Ordered fields' := by unfold Table.Ordered; decide
  have hread : AttachedFile.read? (Json.obj fields) = some f := rfl
  have hread' : AttachedFile.read? (Json.obj fields') = some f' := rfl
  have hfiles : ∀ g ∈ [f, f'], g.IsRead :=
    List.forall_mem_cons.2 ⟨⟨_, hordered, hread⟩, List.forall_mem_singleton.2 ⟨_, hordered', hread'⟩⟩
  have hhtml : list [f, f'] = html := by decide +kernel
  obtain ⟨hjson, hagain⟩ := hround fields f hordered hread
  obtain ⟨hrender, hlist, hparse⟩ := hshown [f, f'] hfiles
  rw [hhtml] at hrender hlist hparse
  exact ⟨⟨hordered, hread⟩, ⟨hordered', hread'⟩, hjson, hagain, hfiles, hhtml, hrender,
    ⟨fun _ _ _ => rfl, List.cons_ne_nil _ _, hlist host [] rfl (List.cons_ne_nil _ _)⟩, hparse⟩

end FileListView

end RichContent
