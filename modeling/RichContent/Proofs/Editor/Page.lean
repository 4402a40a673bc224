/-
What an editor renders has the structure that was meant.

The content input and the script are two elements that are taken as they stand,
so either would end at the first end tag of its name in what is put into it. In
the content no `<` is left, and in the script no `</`; the names of options are
written without quotes, but none can end the tag. So there are two elements and
nothing else, whatever the arguments are (`render_isPage`).
-/
import RichContent.Editor.Render
import RichContent.Proofs.Editor.Stages
import RichContent.Proofs.Markup.Piece
import RichContent.Proofs.Markup.Tiling

namespace RichContent

open Text

namespace Render

/-! ## The script -/

theorem head?_guardEndTags (t : Text) : (guardEndTags t).head? = t.head? := by
  unfold guardEndTags
  split <;> rfl

/-- What is put into the script cannot end it. -/
theorem endless_guardEndTags (t : Text) : Endless (guardEndTags t) := by
  fun_induction guardEndTags t with
  | case1 => exact List.isChain_nil
  | case2 rest ih =>
    refine List.isChain_cons_cons.2 ⟨by decide, List.isChain_cons_cons.2 ⟨by decide, ?_⟩⟩
    refine List.isChain_cons.2 ⟨?_, ih⟩
    intro d _ h
    exact absurd h.1 (by decide)
  | case3 c rest hne ih =>
    refine List.isChain_cons.2 ⟨?_, ih⟩
    rintro d hd ⟨rfl, rfl⟩
    rw [head?_guardEndTags] at hd
    cases rest with
    | nil => cases hd
    | cons d rest =>
      cases hd
      exact hne rest rfl rfl

/-- Between two texts stands one that neither ends what is before it nor begins what is after. -/
theorem endless_between {s t : Text} (hs : Endless s) (ht : Endless t) {literal : Text}
    (hliteral : Endless literal) (hne : literal ≠ []) (hstart : literal.head? ≠ some '/')
    (hend : literal.getLast? ≠ some '<') : Endless (s ++ literal ++ t) := by
  refine endless_append (endless_append hs hliteral (.inr hstart)) ht (.inl ?_)
  rw [List.getLast?_append_of_ne_nil _ hne]
  exact hend

/-- What is between the tags of the script. -/
def scriptBody (format domId : Text) (options custom : Fields) (tools : List ToolDescriptor) :
    Text :=
  "\n    $(function() \x7b\n        XEeditor.getEditor(".toList
    ++ scriptJson (.str format) ++ ").create(".toList ++ scriptJson (.str domId) ++ ", ".toList
    ++ scriptJson (.obj options) ++ ", ".toList ++ scriptJson (.obj custom) ++ ", ".toList
    ++ scriptJson (.arr (tools.map (·.json))) ++ ");\n    \x7d);\n".toList

section

variable (format domId : Text) (options custom : Fields) (tools : List ToolDescriptor)

theorem script_eq : script format domId options custom tools =
    "<script>".toList ++
      (scriptBody format domId options custom tools ++ Lexeme.endTagText "script".toList) := by
  unfold script scriptBody
  simp [Lexeme.endTagText]

theorem endless_scriptBody : Endless (scriptBody format domId options custom tools) := by
  have hjson (j : Json) : Endless (scriptJson j) := endless_guardEndTags j.print
  have hcomma : Endless ", ".toList := by unfold Endless; decide
  have hopen : Endless "\n    $(function() \x7b\n        XEeditor.getEditor(".toList := by
    unfold Endless
    decide
  have hcreate : Endless ").create(".toList := by unfold Endless; decide
  have hclose : Endless ");\n    \x7d);\n".toList := by unfold Endless; decide
  unfold scriptBody
  refine endless_append ?_ hclose (.inr (by decide))
  refine endless_between ?_ (hjson _) hcomma (by decide) (by decide) (by decide)
  refine endless_between ?_ (hjson _) hcomma (by decide) (by decide) (by decide)
  refine endless_between ?_ (hjson _) hcomma (by decide) (by decide) (by decide)
  refine endless_between ?_ (hjson _) hcreate (by decide) (by decide) (by decide)
  exact endless_append hopen (hjson _) (.inl (by decide))

end

/-! ## The content input -/

/-- What is between the name of the input's tag and its end. -/
def inputAttributes (d : Display) : Text :=
  printAttribute "name".toList d.domName ++ printAttribute "id".toList d.domId
    ++ d.domOptions.flatMap (fun (name, value) => printAttribute name value)
    ++ printAttribute "placeholder".toList d.placeholder

theorem input_eq (d : Display) (r : Text) : input d ++ r =
    '<' :: ('t' :: ("extarea".toList ++ inputAttributes d) ++
      '>' :: (escape d.content ++ (Lexeme.endTagText "textarea".toList ++ r))) := by
  unfold input inputAttributes
  simp [Lexeme.endTagText]

theorem printAttribute_eq (name value : Text) :
    printAttribute name value = ' ' :: escape name ++ '=' :: '"' :: escape value ++ ['"'] := by
  unfold printAttribute
  simp

/-- A name need not be one: without quotes and angle brackets it does not end the tag. -/
theorem passable_printAttribute (name value : Text) :
    Lexeme.Passable (printAttribute name value) := by
  have hname : ∀ c ∈ ' ' :: escape name, c ≠ '"' ∧ c ≠ '\'' ∧ c ≠ '<' ∧ c ≠ '>' := by
    refine List.forall_mem_cons.2 ⟨by decide, fun c hc => ?_⟩
    obtain ⟨h1, h2, h3, h4⟩ := ne_of_mem_escape hc
    exact ⟨h3, h4, h1, h2⟩
  rw [printAttribute_eq]
  exact Lexeme.passable_valued hname (by decide) value

theorem passable_input (d : Display) :
    Lexeme.Passable ("extarea".toList ++ inputAttributes d) := by
  have hname : Lexeme.Passable "extarea".toList :=
    Lexeme.passable_of_ne (List.all_iff_forall_prop.1 (by decide))
  have hoptions := Lexeme.passable_flatMap (l := d.domOptions)
    (f := fun (name, value) => printAttribute name value) fun x _ => passable_printAttribute x.1 x.2
  unfold inputAttributes
  exact Lexeme.passable_append hname (Lexeme.passable_append (Lexeme.passable_append
    (Lexeme.passable_append (passable_printAttribute _ _) (passable_printAttribute _ _)) hoptions)
    (passable_printAttribute _ _))

theorem scan_printAttribute {name : Text} (h : Attribute.WritableName name)
    (hescape : escape name = name) (value t : Text) :
    Attribute.scan (printAttribute name value ++ t) = ⟨name, some value⟩ :: Attribute.scan t := by
  have hvalued := Attribute.scan_valued h.ne_nil (fun c hc => (h.plain c hc).1)
    (show isQuote '"' = true from rfl) value t
  rw [h.small] at hvalued
  rw [← hvalued, printAttribute_eq, hescape]
  simp

/-- The tag of the content input. -/
def inputTag (d : Display) : StartTag :=
  StartTag.parse ('<' :: 't' :: ("extarea".toList ++ inputAttributes d) ++ ['>'])

/-- The first two attributes are those that were meant, whatever the options are. -/
theorem inputTag_eq (d : Display) : ∃ others,
    inputTag d = ⟨"textarea".toList, Attribute.keepFirst []
      (⟨"name".toList, some d.domName⟩ :: ⟨"id".toList, some d.domId⟩ :: others), false⟩ := by
  have hself : ((trimEnd (inputAttributes d)).getLast? == some '/') = false := by
    unfold inputAttributes
    rw [printAttribute_eq "placeholder".toList, ← List.append_assoc,
      getLast?_trimEnd_concat (by decide)]
    rfl
  have hparse := @StartTag.parse_of_name "textarea".toList (inputAttributes d)
    (List.all_iff_forall_prop.1 (by decide)) (.inr ⟨_, rfl⟩)
  have hname : Attribute.WritableName "name".toList ∧ escape "name".toList = "name".toList := by
    decide
  have hid : Attribute.WritableName "id".toList ∧ escape "id".toList = "id".toList := by
    decide
  obtain ⟨others, hscan⟩ : ∃ others, Attribute.scan (inputAttributes d) =
      ⟨"name".toList, some d.domName⟩ :: ⟨"id".toList, some d.domId⟩ :: others := by
    unfold inputAttributes
    rw [List.append_assoc, List.append_assoc, scan_printAttribute hname.1 hname.2,
      scan_printAttribute hid.1 hid.2]
    exact ⟨_, rfl⟩
  rw [hself, hscan] at hparse
  exact ⟨others, hparse⟩

/-- The keys of the options are names of attributes, and are not used otherwise. -/
structure PlainOptions (d : Display) : Prop where
  nodup : (d.domOptions.map (·.1)).Nodup
  ne_nil : ∀ key ∈ d.domOptions.map (·.1), key ≠ []
  small : ∀ key ∈ d.domOptions.map (·.1), lower key = key
  plain : ∀ key ∈ d.domOptions.map (·.1), ∀ c ∈ key,
    isBlank c = false ∧ c ∉ ['/', '=', '<', '>', '&', '"', '\'']
  others : ∀ key ∈ d.domOptions.map (·.1),
    key ∉ ["name".toList, "id".toList, "placeholder".toList]

/-- The attributes of the content input. -/
def attributes (d : Display) : List (Text × Text) :=
  ("name".toList, d.domName) :: ("id".toList, d.domId) :: d.domOptions ++
    [("placeholder".toList, d.placeholder)]

theorem map_fst_attributes (d : Display) : (attributes d).map (·.1) =
    "name".toList :: "id".toList :: d.domOptions.map (·.1) ++ ["placeholder".toList] := by
  simp [attributes]

section

variable {d : Display} (h : PlainOptions d)

include h

theorem writableName_attributes :
    ∀ key ∈ (attributes d).map (·.1), Attribute.WritableName key ∧ escape key = key := by
  rw [map_fst_attributes]
  intro key hkey
  simp only [List.cons_append, List.mem_cons, List.mem_append, List.not_mem_nil, or_false] at hkey
  rcases hkey with rfl | rfl | hkey | rfl
  · decide
  · decide
  · have hplain := h.plain key hkey
    simp only [List.mem_cons, List.not_mem_nil, or_false, not_or] at hplain
    refine ⟨⟨h.ne_nil key hkey, h.small key hkey, fun c hc => ?_⟩,
      escape_eq_self fun c hc => ?_⟩
    · obtain ⟨hblank, h1, h2, h3, h4, -⟩ := hplain c hc
      exact ⟨Attribute.isNameChar_iff.2 ⟨hblank, h1, h2, h4⟩, h3⟩
    · obtain ⟨-, -, -, h3, h4, h5, h6, h7⟩ := hplain c hc
      exact ⟨h5, h3, h4, h6, h7⟩
  · decide

theorem nodup_attributes : ((attributes d).map (·.1)).Nodup := by
  have hother : ∀ name ∈ ["name".toList, "id".toList, "placeholder".toList],
      name ∉ d.domOptions.map (·.1) := fun name hname hmem => h.others name hmem hname
  have hid : "id".toList ∉ d.domOptions.map (·.1) := hother _ (by decide)
  have hname : "name".toList ∉ "id".toList :: d.domOptions.map (·.1) := by
    intro hmem
    rcases List.mem_cons.1 hmem with heq | hmem
    · exact absurd heq (by decide)
    · exact hother _ (by decide) hmem
  rw [map_fst_attributes]
  refine List.nodup_append.2 ⟨List.nodup_cons.2 ⟨hname, List.nodup_cons.2 ⟨hid, h.nodup⟩⟩,
    by simp, ?_⟩
  intro key hkey key' hkey' heq
  obtain rfl := List.mem_singleton.1 hkey'
  subst heq
  rcases List.mem_cons.1 hkey with heq | hkey
  · exact absurd heq (by decide)
  rcases List.mem_cons.1 hkey with heq | hkey
  · exact absurd heq (by decide)
  · exact hother _ (by decide) hkey

theorem inputAttributes_of_plain :
    inputAttributes d = Attribute.writtenAll (Attribute.quoted (attributes d)) := by
  have hwritten : ∀ x ∈ attributes d,
      printAttribute x.1 x.2 = Attribute.written '"' ⟨x.1, some x.2⟩ := by
    intro x hx
    obtain ⟨-, hescape⟩ := writableName_attributes h x.1 (List.mem_map_of_mem hx)
    rw [printAttribute_eq, hescape]
    simp [Attribute.written]
  have hall : inputAttributes d = (attributes d).flatMap fun x => printAttribute x.1 x.2 := by
    simp [inputAttributes, attributes]
  rw [hall, Attribute.writtenAll, Attribute.quoted, List.flatMap_map]
  exact List.flatMap_congr hwritten

theorem inputTag_of_plain :
    inputTag d = ⟨"textarea".toList, (attributes d).map fun (name, value) => ⟨name, some value⟩,
      false⟩ := by
  have hwritable := @StartTag.writable_quoted 't' "extarea".toList (attributes d) (by decide)
    (List.all_iff_forall_prop.1 (by decide))
    (fun key hkey => (writableName_attributes h key hkey).1) (nodup_attributes h)
  have hparse := @StartTag.parse_written "textarea".toList (List.all_iff_forall_prop.1 (by decide))
    _ hwritable.attributes hwritable.nodup false
  have hwritten : StartTag.written "textarea".toList (Attribute.quoted (attributes d)) false =
      '<' :: 't' :: ("extarea".toList ++ inputAttributes d) ++ ['>'] := by
    rw [inputAttributes_of_plain h]
    simp [StartTag.written]
  have hmap : (Attribute.quoted (attributes d)).map (·.2) =
      (attributes d).map fun (name, value) => ⟨name, some value⟩ := by
    rw [Attribute.quoted, List.map_map]
    rfl
  rw [hwritten, hmap] at hparse
  exact hparse

end

/-! ## Both elements -/

/-- The script is one piece. -/
theorem all_script (start : Nat) (format domId : Text) (options custom : Fields)
    (tools : List ToolDescriptor) :
    Piece.all start (script format domId options custom tools) =
      [.verbatim ⟨"script".toList, [], false⟩ ⟨start, "<script>".toList⟩
        ⟨start + utf8Size "<script>".toList, scriptBody format domId options custom tools⟩
        (some ⟨start + utf8Size "<script>".toList +
          (scriptBody format domId options custom tools).utf8Size,
          Lexeme.endTagText "script".toList⟩)] := by
  have hpass : Lexeme.Passable "cript".toList :=
    Lexeme.passable_of_ne (List.all_iff_forall_prop.1 (by decide))
  have htag : StartTag.parse "<script>".toList = ⟨"script".toList, [], false⟩ := by decide +kernel
  have hnext := Lexeme.next_of_passable (show Lexeme.isLetter 's' = true by decide) hpass
    (scriptBody format domId options custom tools ++ (Lexeme.endTagText "script".toList ++ []))
  have hnext' : Lexeme.next '<' ('s' :: "cript".toList ++ '>' ::
      (scriptBody format domId options custom tools ++ (Lexeme.endTagText "script".toList ++ []))) =
      ⟨"<script>".toList, .startTag ⟨"script".toList, [], false⟩,
        scriptBody format domId options custom tools ++
          (Lexeme.endTagText "script".toList ++ [])⟩ := by
    rw [← htag]
    exact hnext
  have hpieces := Piece.all_verbatim start hnext' (by decide) (by decide)
    (endless_scriptBody format domId options custom tools)
  rw [Piece.all_nil, List.append_nil] at hpieces
  rw [script_eq]
  exact hpieces

theorem parse_page (d : Display) (format : Text) (options custom : Fields)
    (tools : List ToolDescriptor) :
    ∃ opening content closing opening' children' closing',
      Forest.parse (input d ++ script format d.domId options custom tools) =
        .element (inputTag d) opening (Forest.verbatim content) (some closing)
          (.element ⟨"script".toList, [], false⟩ opening' children' (some closing') .nil) ∧
      content.text = escape d.content := by
  obtain ⟨others, htag⟩ := inputTag_eq d
  have hname : (inputTag d).name = "textarea".toList := by rw [htag]
  have hself : (inputTag d).selfClosing = false := by rw [htag]
  have hnext : Lexeme.next '<' ('t' :: ("extarea".toList ++ inputAttributes d) ++ '>' ::
      (escape d.content ++ (Lexeme.endTagText "textarea".toList ++
        script format d.domId options custom tools))) =
      ⟨'<' :: 't' :: ("extarea".toList ++ inputAttributes d) ++ ['>'], .startTag (inputTag d),
        escape d.content ++ (Lexeme.endTagText (inputTag d).name ++
          script format d.domId options custom tools)⟩ := by
    rw [hname]
    exact Lexeme.next_of_passable (by decide) (passable_input d) _
  have hbody : Endless (escape d.content) := endless_of_ne fun c hc => (ne_of_mem_escape hc).1
  have hpieces := Piece.all_verbatim 0 hnext
    (by rw [hname, hself]; decide) (by rw [hname]; decide) hbody
  rw [all_script] at hpieces
  have hforest := congrArg (fun pieces => (Forest.grow [] pieces).forest) hpieces
  rw [Forest.grow_verbatim, Forest.grow_verbatim, Forest.grow_nil] at hforest
  rw [Forest.parse, input_eq]
  exact ⟨_, ⟨_, escape d.content⟩, _, _, _, _, hforest, rfl⟩

end Render

end RichContent
