/-
What the options are that the client editor is activated with.

They are merged from three sources: the editor's own options, the configuration
and the format. A merge leaves the editor's own options alone and takes the
others from what is merged in (`Options.lookup_merge`), so after both merges the
source of each option is known (`Options.lookup_own`, `Options.lookup_further`).
-/
import Mathlib.Data.List.Forall2
import RichContent.Editor.Options
import RichContent.Proofs.Editor.Stages
import RichContent.Proofs.Json.Table

namespace RichContent

open Text

/-! ## Settings that are lists -/

/-- The parts of a text have nothing in them of what it is split at. -/
theorem Text.of_mem_splitOnP {p : Char → Bool} {t part : Text} (h : part ∈ t.splitOnP p) :
    ∀ c ∈ part, p c = false := by
  induction t generalizing part with
  | nil =>
    obtain rfl := List.mem_singleton.1 h
    exact fun c hc => absurd hc List.not_mem_nil
  | cons d t ih =>
    rw [List.splitOnP_cons_eq_if_modifyHead] at h
    split at h
    · rcases List.mem_cons.1 h with rfl | h
      · exact fun c hc => absurd hc List.not_mem_nil
      · exact ih h
    · rename_i hd
      obtain ⟨first, rest, hparts⟩ := List.exists_cons_of_ne_nil (List.splitOnP_ne_nil p t)
      rw [hparts, List.modifyHead_cons] at h
      rw [hparts] at ih
      rcases List.mem_cons.1 h with rfl | h
      · exact List.forall_mem_cons.2 ⟨Bool.eq_false_iff.2 hd, ih List.mem_cons_self⟩
      · exact ih (List.mem_cons_of_mem _ h)

namespace Options

/-- What a setting is as a list: the parts of a text between commas, trimmed, an array as it is,
and otherwise nothing. -/
inductive IsListSetting : Option Json → Json → Prop
  | text {parts : List Text} : parts ≠ [] → (∀ part ∈ parts, ',' ∉ part) →
    IsListSetting (some (.str ([','].intercalate parts))) (.texts (parts.map trim))
  | array {items : List Json} : IsListSetting (some (.arr items)) (.arr items)
  | other {setting : Option Json} : (∀ t, setting ≠ some (.str t)) →
    (∀ items, setting ≠ some (.arr items)) → IsListSetting setting (.arr [])

theorem isListSetting (setting : Option Json) : IsListSetting setting (listSetting setting) := by
  rw [listSetting.eq_def]
  split
  · rename_i t
    have hparts : ∀ part ∈ t.splitOn ',', ',' ∉ part := by
      intro part hpart hcomma
      have hnot := of_mem_splitOnP hpart ',' hcomma
      cases hnot
    have h := IsListSetting.text (List.splitOn_ne_nil ',' t) hparts
    rwa [List.intercalate_splitOn] at h
  · exact .array
  · rename_i htext harray
    exact .other htext harray

/-! ## Answers of the host -/

section

variable {κ α γ : Type} {call : κ → Call} {s : Service call α Failure} {past : History}

/-- An object with the answers to some questions, asked one after the other, each under its name. -/
def Answered (s : Service call α Failure) (past : History) (names : List Text)
    (questions : List κ) (json : α → Json) (v : Json) : Prop :=
  ∃ answers fields, s.Answers past questions answers ∧ v = .obj fields ∧ Table.Distinct fields ∧
    (∀ key, key ∈ fields.map (·.1) ↔ key ∈ names) ∧
    List.Forall₂ (fun name a => fields.lookup name = some (json a)) names answers

variable {l : List γ} {name : γ → Text} {question : γ → κ} {json : α → Json} {answers : List α}

theorem map_fst_zipWith (h : answers.length = l.length) :
    (l.zipWith (fun x a => (name x, json a)) answers).map (·.1) = l.map name := by
  induction l generalizing answers with
  | nil => rfl
  | cons x l ih =>
    obtain ⟨a, answers, rfl⟩ := List.exists_cons_of_length_eq_add_one h
    rw [List.zipWith_cons_cons, List.map_cons, List.map_cons, ih (Nat.succ.inj h)]

theorem mem_zipWith (h : answers.length = l.length) :
    List.Forall₂ (fun x a => (name x, json a) ∈ l.zipWith (fun x a => (name x, json a)) answers)
      l answers := by
  refine List.forall₂_iff_get.2 ⟨h.symm, fun i hi hi' => ?_⟩
  refine List.mem_iff_getElem.2 ⟨i, by rw [List.length_zipWith]; omega, ?_⟩
  simp

theorem answered_ofList (hd : (l.map name).Nodup) (h : s.Answers past (l.map question) answers) :
    Answered s past (l.map name) (l.map question) json
      (.obj (Table.ofList (l.zipWith (fun x a => (name x, json a)) answers))) := by
  have hlength : answers.length = l.length := by rw [h.length_eq, List.length_map]
  have hkeys := @map_fst_zipWith _ _ l name json answers hlength
  have hdistinct : Table.Distinct (l.zipWith (fun x a => (name x, json a)) answers) := by
    rwa [Table.Distinct, hkeys]
  have hlookup (key : Text) : (Table.ofList (l.zipWith (fun x a => (name x, json a)) answers)).lookup
      key = (l.zipWith (fun x a => (name x, json a)) answers).lookup key := by
    rw [Table.lookup_ofList, Table.lookup_reverse hdistinct]
  refine ⟨answers, _, h, rfl, (Table.ordered_ofList _).distinct, fun key => ?_, ?_⟩
  · rw [Table.mem_keys, hlookup, ← Table.mem_keys, hkeys]
  · have hmem := @mem_zipWith _ _ l name json answers hlength
    refine List.forall₂_map_left_iff.2 (hmem.imp fun x a hxa => ?_)
    rw [hlookup, Table.lookup_of_mem hdistinct hxa]

end

/-- The calls for the URLs of some routes. -/
def routeCalls (names : List (Text × Text)) : List Call := names.map fun x => .route x.2

/-- The abilities in a scope. -/
def inScope (scope : Text) : List (Text × Text) := abilities.map fun ability => (ability, scope)

theorem answered_routes {host : Host} {names : List (Text × Text)} {past : History} {v : Json}
    (hd : (names.map (·.1)).Nodup) (h : (routes host names past).result = .ok v) :
    Answered host.route past (names.map (·.1)) (names.map (·.2)) .str v ∧
      (routes host names past).calls = routeCalls names := by
  rw [routes, Traced.bind_pure_apply] at h ⊢
  cases hentries : (Traced.forEach (fun x : Text × Text => do
      let url ← host.route.ask .host x.2
      pure (x.1, Json.str url)) names past).result with
  | error e => simp [hentries, Except.map] at h
  | ok entries =>
    obtain ⟨urls, hurls, rfl, hcalls⟩ := Service.exists_answers hentries
    rw [hentries] at h
    cases h
    exact ⟨answered_ofList hd hurls, hcalls⟩

theorem answered_permissions {host : Host} {scope : Text} {past : History} {v : Json}
    (h : (permissions host scope past).result = .ok v) :
    Answered host.allows past abilities (inScope scope) .bool v := by
  rw [permissions] at h
  obtain ⟨entries, hentries, h⟩ := Traced.result_bind_eq_ok.1 h
  cases h
  obtain ⟨granted, hgranted, rfl, -⟩ := Service.exists_answers hentries
  have hnames : (abilities.map id).Nodup := by decide
  have hanswered : Answered host.allows past (abilities.map id) (inScope scope) .bool _ :=
    answered_ofList hnames hgranted
  rwa [List.map_id] at hanswered

/-! ## Merging -/

section

variable {options further : Fields} {key : Text}

theorem merge_eq (options further : Fields) : merge options further =
    (further.filter fun entry => !baseKeys.contains entry.1).foldl
      (fun table entry => Table.insert entry.1 entry.2 table) options := by
  rw [List.foldl_filter, merge]
  congr 1
  funext table ⟨key, value⟩
  cases h : baseKeys.contains key with
  | true => simp only [h, if_true, Bool.not_true, Bool.false_eq_true, if_false]
  | false => simp only [h, Bool.false_eq_true, if_false, Bool.not_false, if_true]

/-- A merge leaves the editor's own options alone, and takes the others from what is merged in. -/
theorem lookup_merge (options further : Fields) (key : Text) :
    (merge options further).lookup key =
      if key ∈ baseKeys then options.lookup key
      else (further.reverse.lookup key).or (options.lookup key) := by
  have hlookup : (further.filter fun entry => !baseKeys.contains entry.1).reverse.lookup key =
      if key ∈ baseKeys then none else further.reverse.lookup key := by
    rw [← List.filter_reverse, Table.lookup_filter fun key => !baseKeys.contains key]
    by_cases h : key ∈ baseKeys <;> simp [h]
  rw [merge_eq, Table.lookup_foldl, hlookup]
  split <;> rfl

theorem ordered_merge (h : Table.Ordered options) (further : Fields) :
    Table.Ordered (merge options further) := by
  rw [merge_eq]
  exact Table.ordered_foldl h _

end

/-! ## The editor's own options -/

/-- The configuration of an editor, which is empty if there is none. -/
def config (e : Editor) : Fields := e.inst.config.getD []

/-- The editor's own options, given the answers of the host. -/
def ownEntries (e : Editor) (upload suggestion perms : Json) : Fields :=
  [("fileUpload".toList, upload), ("suggestion".toList, suggestion),
    ("names".toList, names e.markers),
    ("fontFamily".toList, listSetting ((config e).lookup "fontFamily".toList)),
    ("extensions".toList, listSetting ((config e).lookup "extensions".toList)),
    ("perms".toList, perms),
    ("files".toList, .arr (e.inst.files.map (·.json)))]

variable {e : Editor} {past : History} {base payload : Fields}

/-- The editor's own options, with what the host has answered to one question after the other. -/
theorem exists_ownEntries (h : (e.baseOptions past).result = .ok base) :
    ∃ upload suggestion perms,
      Answered e.host.route past (fileRoutes.map (·.1)) (fileRoutes.map (·.2)) .str upload ∧
      Answered e.host.route (past ++ routeCalls fileRoutes) (suggestionRoutes.map (·.1))
        (suggestionRoutes.map (·.2)) .str suggestion ∧
      Answered e.host.allows (past ++ routeCalls fileRoutes ++ routeCalls suggestionRoutes)
        abilities (inScope (Instance.scopeOf e.inst.id)) .bool perms ∧
      base = Table.ofList (ownEntries e upload suggestion perms) := by
  rw [Editor.baseOptions] at h
  obtain ⟨upload, hupload, h⟩ := Traced.result_bind_eq_ok.1 h
  obtain ⟨hupload, hcalls⟩ := answered_routes (by decide) hupload
  rw [hcalls] at h
  obtain ⟨suggestion, hsuggestion, h⟩ := Traced.result_bind_eq_ok.1 h
  obtain ⟨hsuggestion, hcalls⟩ := answered_routes (by decide) hsuggestion
  rw [hcalls] at h
  obtain ⟨perms, hperms, h⟩ := Traced.result_bind_eq_ok.1 h
  exact ⟨upload, suggestion, perms, hupload, hsuggestion, answered_permissions hperms,
    (Except.ok.inj h).symm⟩

theorem lookup_ownEntries (e : Editor) (upload suggestion perms : Json) (key : Text) :
    (Table.ofList (ownEntries e upload suggestion perms)).lookup key =
      (ownEntries e upload suggestion perms).lookup key := by
  have hd : Table.Distinct (ownEntries e upload suggestion perms) := by
    have hkeys : (ownEntries e upload suggestion perms).map (·.1) =
        ["fileUpload".toList, "suggestion".toList, "names".toList, "fontFamily".toList,
          "extensions".toList, "perms".toList, "files".toList] := rfl
    rw [Table.Distinct, hkeys]
    decide
  rw [Table.lookup_ofList, Table.lookup_reverse hd]

theorem mem_keys_ownEntries (e : Editor) (upload suggestion perms : Json) (key : Text) :
    key ∈ (ownEntries e upload suggestion perms).map (·.1) ↔ key ∈ baseKeys := by
  simp only [ownEntries, List.map_cons, List.map_nil, List.mem_cons, baseKeys]
  grind

/-! ## The payload -/

/-- The options that the configuration adds. -/
def passed (e : Editor) : Fields := (config e).filter fun entry => entry.1 != "tools".toList

theorem distinct_passed (h : Table.Distinct (config e)) : Table.Distinct (passed e) :=
  List.Nodup.sublist (List.filter_sublist.map _) h

theorem lookup_passed (e : Editor) (key : Text) :
    (passed e).lookup key = if key = "tools".toList then none else (config e).lookup key := by
  rw [passed, Table.lookup_filter fun key => key != "tools".toList]
  by_cases htools : key = "tools".toList <;> simp [htools]

theorem options_eq_ok : (e.options past).result = .ok payload ↔
    ∃ base, (e.baseOptions past).result = .ok base ∧
      merge (merge base (passed e)) (e.format.options e.inst) = payload := by
  rw [Editor.options, Traced.result_bind_eq_ok]
  refine exists_congr fun base => and_congr_right fun _ => ?_
  exact ⟨fun h => Except.ok.inj h, fun h => h ▸ rfl⟩

theorem lookup_own (hbase : (e.baseOptions past).result = .ok base)
    (h : (e.options past).result = .ok payload) {key : Text} (hkey : key ∈ baseKeys) :
    payload.lookup key = base.lookup key := by
  obtain ⟨base', hbase', rfl⟩ := options_eq_ok.1 h
  obtain rfl := Except.ok.inj (hbase.symm.trans hbase')
  rw [lookup_merge, if_pos hkey, lookup_merge, if_pos hkey]

/-- An option that is not the editor's own is from the format, or else from the configuration. -/
theorem lookup_further (hconfig : Table.Distinct (config e))
    (hformat : Table.Distinct (e.format.options e.inst)) (h : (e.options past).result = .ok payload)
    {key : Text} (hkey : key ∉ baseKeys) : payload.lookup key =
      ((e.format.options e.inst).lookup key).or
        (if key = "tools".toList then none else (config e).lookup key) := by
  obtain ⟨base, hbase, rfl⟩ := options_eq_ok.1 h
  obtain ⟨upload, suggestion, perms, -, -, -, rfl⟩ := exists_ownEntries hbase
  have hnone : (ownEntries e upload suggestion perms).lookup key = none := by
    rwa [← mem_keys_ownEntries e upload suggestion perms, Table.mem_keys, not_not] at hkey
  rw [lookup_merge, if_neg hkey, lookup_merge, if_neg hkey, Table.lookup_reverse hformat,
    Table.lookup_reverse (distinct_passed hconfig), lookup_passed, lookup_ownEntries, hnone,
    Option.or_none]

/-- The editor's own options have the values that the editor decides. -/
structure Own (e : Editor) (past : History) (payload : Fields) : Prop where
  fileUpload : ∃ v, Answered e.host.route past (fileRoutes.map (·.1)) (fileRoutes.map (·.2)) .str v ∧
    payload.lookup "fileUpload".toList = some v
  suggestion : ∃ v, Answered e.host.route (past ++ routeCalls fileRoutes)
      (suggestionRoutes.map (·.1)) (suggestionRoutes.map (·.2)) .str v ∧
    payload.lookup "suggestion".toList = some v
  perms : ∃ v, Answered e.host.allows (past ++ routeCalls fileRoutes ++ routeCalls suggestionRoutes)
      abilities (inScope (Instance.scopeOf e.inst.id)) .bool v ∧
    payload.lookup "perms".toList = some v
  names : payload.lookup "names".toList = some (names e.markers)
  files : payload.lookup "files".toList = some (.arr (e.inst.files.map (·.json)))
  fontFamily : ∃ v, IsListSetting ((config e).lookup "fontFamily".toList) v ∧
    payload.lookup "fontFamily".toList = some v
  extensions : ∃ v, IsListSetting ((config e).lookup "extensions".toList) v ∧
    payload.lookup "extensions".toList = some v

/-- What the editor's own options depend on is the same. -/
structure SameSources (e e' : Editor) : Prop where
  route : e.host.route = e'.host.route
  allows : e.host.allows = e'.host.allows
  markers : e.markers = e'.markers
  id : e.inst.id = e'.inst.id
  files : e.inst.files = e'.inst.files
  fontFamily : (config e).lookup "fontFamily".toList = (config e').lookup "fontFamily".toList
  extensions : (config e).lookup "extensions".toList = (config e').lookup "extensions".toList

theorem SameSources.baseOptions_eq {e' : Editor} (h : SameSources e e') :
    e.baseOptions = e'.baseOptions := by
  have hfont := h.fontFamily
  have hextensions := h.extensions
  rw [config, config] at hfont hextensions
  simp only [Editor.baseOptions, routes, permissions, h.route, h.allows, h.markers, h.id, h.files,
    hfont, hextensions]

theorem ordered_options (h : (e.options past).result = .ok payload) : Table.Ordered payload := by
  obtain ⟨base, hbase, rfl⟩ := options_eq_ok.1 h
  obtain ⟨upload, suggestion, perms, -, -, -, rfl⟩ := exists_ownEntries hbase
  exact ordered_merge (ordered_merge (Table.ordered_ofList _) _) _

theorem own_options (h : (e.options past).result = .ok payload) : Own e past payload := by
  obtain ⟨base, hbase, -⟩ := options_eq_ok.1 h
  have hlookup {key : Text} (hkey : key ∈ baseKeys) := lookup_own hbase h hkey
  obtain ⟨upload, suggestion, perms, hupload, hsuggestion, hperms, rfl⟩ := exists_ownEntries hbase
  have hown (key : Text) (hkey : key ∈ baseKeys) :
      payload.lookup key = (ownEntries e upload suggestion perms).lookup key := by
    rw [hlookup hkey, lookup_ownEntries]
  exact
    { fileUpload := ⟨upload, hupload, hown _ (by decide)⟩
      suggestion := ⟨suggestion, hsuggestion, hown _ (by decide)⟩
      perms := ⟨perms, hperms, hown _ (by decide)⟩
      names := hown _ (by decide)
      files := hown _ (by decide)
      fontFamily := ⟨_, isListSetting _, hown _ (by decide)⟩
      extensions := ⟨_, isListSetting _, hown _ (by decide)⟩ }

/-- Every one of the editor's own options is there. -/
theorem mem_keys_of_own (h : (e.options past).result = .ok payload) {key : Text}
    (hkey : key ∈ baseKeys) : key ∈ payload.map (·.1) := by
  obtain ⟨base, hbase, -⟩ := options_eq_ok.1 h
  have hlookup := lookup_own hbase h hkey
  obtain ⟨upload, suggestion, perms, -, -, -, rfl⟩ := exists_ownEntries hbase
  rw [Table.mem_keys, hlookup, lookup_ownEntries, ← Table.mem_keys]
  exact (mem_keys_ownEntries e upload suggestion perms key).2 hkey

theorem mem_keys_options (hconfig : Table.Distinct (config e))
    (hformat : Table.Distinct (e.format.options e.inst)) (h : (e.options past).result = .ok payload)
    (key : Text) : key ∈ payload.map (·.1) ↔ key ∈ baseKeys ∨
      (key ∈ (config e).map (·.1) ∧ key ≠ "tools".toList) ∨
        key ∈ (e.format.options e.inst).map (·.1) := by
  by_cases hkey : key ∈ baseKeys
  · exact ⟨fun _ => .inl hkey, fun _ => mem_keys_of_own h hkey⟩
  · simp only [Table.mem_keys, lookup_further hconfig hformat h hkey, ne_eq,
      Option.or_eq_none_iff, hkey, false_or]
    by_cases htools : key = "tools".toList
    · simp [htools]
    · simp only [htools, if_false, not_false_eq_true, and_true]
      tauto

end Options

open Options

/-- **The options have one source each.** The editor's own depend on nothing but the host, the
markers, the id, the files and two settings; the format's are added, and the configuration's where
the format has none of that name, except for the list of tools. -/
theorem Editor.options_merged {e : Editor} {past : History} {payload : Fields}
    (hconfig : Table.Distinct (config e)) (hformat : Table.Distinct (e.format.options e.inst))
    (h : (e.options past).result = .ok payload) :
    (Table.Distinct payload ∧ ∀ key, key ∈ payload.map (·.1) ↔ key ∈ baseKeys ∨
        (key ∈ (config e).map (·.1) ∧ key ≠ "tools".toList) ∨
          key ∈ (e.format.options e.inst).map (·.1)) ∧
      (Own e past payload ∧ ∀ (e' : Editor) (payload' : Fields), SameSources e e' →
        (e'.options past).result = .ok payload' →
          ∀ key ∈ baseKeys, payload'.lookup key = payload.lookup key) ∧
      (∀ key ∉ baseKeys, key ∈ (e.format.options e.inst).map (·.1) →
        payload.lookup key = (e.format.options e.inst).lookup key) ∧
      (∀ key ∉ baseKeys, key ∉ (e.format.options e.inst).map (·.1) → key ≠ "tools".toList →
        payload.lookup key = (config e).lookup key) ∧
      ("tools".toList ∈ payload.map (·.1) →
        "tools".toList ∈ (e.format.options e.inst).map (·.1)) := by
  refine ⟨⟨(ordered_options h).distinct, mem_keys_options hconfig hformat h⟩,
    ⟨own_options h, fun e' payload' hsame h' key hkey => ?_⟩,
    fun key hkey hadded => ?_, fun key hkey hadded htools => ?_, fun htools => ?_⟩
  · obtain ⟨base, hbase, -⟩ := options_eq_ok.1 h
    rw [lookup_own hbase h hkey, lookup_own (hsame.baseOptions_eq ▸ hbase) h' hkey]
  · obtain ⟨v, hv⟩ := Option.ne_none_iff_exists'.1 (Table.mem_keys.1 hadded)
    rw [lookup_further hconfig hformat h hkey, hv, Option.some_or]
  · rw [Table.mem_keys, not_not] at hadded
    rw [lookup_further hconfig hformat h hkey, hadded, if_neg htools, Option.none_or]
  · rcases (mem_keys_options hconfig hformat h _).1 htools with hown | ⟨-, hne⟩ | hadded
    · exact absurd hown (by decide)
    · exact absurd rfl hne
    · exact hadded

/-- All three sources have options of the same names, the editor's own among them. -/
theorem Editor.options_merged_colliding :
    let host : Host :=
      ⟨.always .ok, .always fun x => .ok (x.1 == "html".toList), .always fun _ => .ok []⟩
    let config : Fields :=
      [("fontFamily".toList, .str " a ,,b".toList), ("height".toList, .int 1),
        ("perms".toList, .null), ("tools".toList, .arr []), ("width".toList, .int 2)]
    let added : Fields :=
      [("extensions".toList, .null), ("height".toList, .int 3), ("names".toList, .null),
        ("tools".toList, .bool true)]
    let format : ContentFormat := { name := "f".toList, options := fun _ => added }
    let inst : Instance :=
      InstancePlan.buildWithoutTools { id := "board".toList, config := some config }
    let e := Editor.new inst format host
    Table.Distinct (Options.config e) ∧ Table.Distinct (e.format.options e.inst) ∧
      ∃ payload, (e.options []).result = .ok payload ∧
        payload.map (·.1) = ["extensions".toList, "fileUpload".toList, "files".toList,
          "fontFamily".toList, "height".toList, "names".toList, "perms".toList,
          "suggestion".toList, "tools".toList, "width".toList] ∧
        payload.lookup "fontFamily".toList =
          some (.texts ["a".toList, [], "b".toList]) ∧
        payload.lookup "extensions".toList = some (.arr []) ∧
        payload.lookup "names".toList = some (names e.markers) ∧
        payload.lookup "height".toList = some (.int 3) ∧
        payload.lookup "width".toList = some (.int 2) ∧
        payload.lookup "tools".toList = some (.bool true) := by
  intro host config added format inst e
  have hconfig : Table.Distinct (Options.config e) := by
    rw [Table.Distinct]
    decide
  have hformat : Table.Distinct (e.format.options e.inst) := by
    rw [Table.Distinct]
    decide
  obtain ⟨payload, h, hkeys, hfont, hextensions⟩ : ∃ payload, (e.options []).result = .ok payload ∧
      payload.map (·.1) = ["extensions".toList, "fileUpload".toList, "files".toList,
        "fontFamily".toList, "height".toList, "names".toList, "perms".toList,
        "suggestion".toList, "tools".toList, "width".toList] ∧
      payload.lookup "fontFamily".toList = some (.texts ["a".toList, [], "b".toList]) ∧
      payload.lookup "extensions".toList = some (.arr []) := ⟨_, rfl, rfl, rfl, rfl⟩
  obtain ⟨-, ⟨hown, -⟩, hadded, hpassed, -⟩ := Editor.options_merged hconfig hformat h
  have htools : "tools".toList ∉ baseKeys := by decide
  exact ⟨hconfig, hformat, payload, h, hkeys, hfont, hextensions, hown.names,
    hadded _ (by decide) (by decide), hpassed _ (by decide) (by decide) (by decide),
    hadded _ htools (by decide)⟩

end RichContent
