import Reoftpd.ConfigText

/-!
# Rendered account entries

The snippets that `add-camera` and `add-viewer` append to the configuration (`cli.rs`), and
what a configuration is with a snippet at its end.  The renderers splice their arguments
between quotes as they are.
-/
namespace Reoftpd
open Toml

/-! ## Rendering -/

/-- `render_camera_entry`. -/
def renderCameraEntry (name : String) (username : Option String) (hash : String)
    (requireTls : Bool) : String :=
  let s := "\n[[camera]]\nname = \"" ++ name ++ "\"\n"
  let s :=
    match username with
    | some u => s ++ ("username = \"" ++ u ++ "\"\n")
    | none => s
  let s := s ++ ("upload_password_hash = \"" ++ hash ++ "\"\n")
  if requireTls then s ++ "require_tls = true\n" else s

/-- The comma-separated items of a scope argument, trimmed. -/
def scopeItems (scope : String) : List String :=
  (scope.toList.splitOn ',').map fun x => trim (String.ofList x)

/-- `render_viewer_entry`. -/
def renderViewerEntry (name hash scope : String) : String :=
  let scopeToml :=
    if scope = "all" then "\"all\""
    else "[" ++ ", ".intercalate ((scopeItems scope).map fun x => "\"" ++ x ++ "\"") ++ "]"
  "\n[[viewer]]\nname = \"" ++ name ++ "\"\npassword_hash = \"" ++ hash ++ "\"\nscope = " ++
    scopeToml ++ "\n"

/-! ## What an entry asks for -/

/-- The account that `add-camera` is asked for. -/
def askedCamera (name : String) (username : Option String) (hash : String) (requireTls : Bool) :
    CameraCfg :=
  ⟨name, username, hash, if requireTls then some true else none⟩

/-- The scope that an argument of `add-viewer` asks for. -/
def askedScope (scope : String) : Scope :=
  if scope = "all" then .all else .list (scopeItems scope)

/-- The configuration with one camera more. -/
def FileConfig.addCamera (c : FileConfig) (cam : CameraCfg) : FileConfig :=
  c.withCameras (c.config.camera ++ [cam])

/-- The configuration with one viewer more. -/
def FileConfig.addViewer (c : FileConfig) (v : ViewerCfg) : FileConfig :=
  c.withViewers (c.config.viewer ++ [v])

/-- The text writes the value of a key as an array, to which no header adds a table. -/
def WritesArray (text k : String) : Prop :=
  ∃ d items, read (documentChars text) = some d ∧ Table.get k d.root = some (.array items)

theorem writesArray_iff {text k : String} : WritesArray text k ↔
    ((read (documentChars text)).any fun d => (Table.get k d.root).any Node.isArray) = true := by
  rw [Option.any_eq_true]
  constructor
  · rintro ⟨d, items, hd, hi⟩
    exact ⟨d, hd, by simp [hi, Node.isArray]⟩
  · rintro ⟨d, hd, ha⟩
    obtain ⟨n, hn, ha⟩ := (Option.any_eq_true ..).mp ha
    cases n with
    | array items => exact ⟨d, items, hd, hn⟩
    | _ => cases ha

instance (text k : String) : Decidable (WritesArray text k) :=
  decidable_of_iff _ writesArray_iff.symm

/-! ## Entries as lines -/

/-- The lines of a camera whose values are strings. -/
def cameraLines (name : String) (username : Option String) (hash : String) :
    List (String × String) :=
  ("name", name) :: username.toList.map (("username", ·)) ++ [("upload_password_hash", hash)]

/-- The last line of a camera. -/
def tlsLine (requireTls : Bool) : List Char :=
  if requireTls then "require_tls = true\n".toList else []

/-- The lines of a viewer whose values are strings. -/
def viewerLines (name hash : String) : List (String × String) :=
  [("name", name), ("password_hash", hash)]

/-- The opening of a scope that is a list. -/
def scopeOpening : List Char := "scope = [\"".toList

/-- The last line of a viewer. -/
def scopeLine (scope : String) : List Char :=
  if scope = "all" then "scope = \"all\"\n".toList
  else
    match scopeItems scope with
    | [] => "scope = []\n".toList
    | it :: its => scopeOpening ++ arrayText it its ['\n']

theorem toList_renderCameraEntry (name : String) (username : Option String) (hash : String)
    (requireTls : Bool) :
    (renderCameraEntry name username hash requireTls).toList =
      '\n' :: (tableOpening "camera" ++
        stringLines (cameraLines name username hash) (tlsLine requireTls)) := by
  cases username <;> cases requireTls <;>
    simp [renderCameraEntry, tableOpening, stringLines, stringOpening, cameraLines, tlsLine]

theorem scopeItems_ne_nil (scope : String) : scopeItems scope ≠ [] := by
  simp [scopeItems, List.splitOn_ne_nil]

/-- Items between quotes, with commas between them. -/
theorem toList_joinItems (it : String) (its : List String) (y : List Char) :
    (", ".intercalate ((it :: its).map fun x => "\"" ++ x ++ "\"")).toList ++ ']' :: y =
      '\x22' :: arrayText it its y := by
  induction its generalizing it with
  | nil => simp [arrayText, itemsText]
  | cons it' its ih =>
      have ih' := ih it'
      rw [List.map_cons] at ih'
      rw [List.map_cons, List.map_cons, String.intercalate_cons_cons, String.toList_append,
        String.toList_append, List.append_assoc, ih']
      simp [arrayText, itemsText]

/-- The value of the last line of a viewer. -/
theorem toList_scope (scope : String) :
    ("scope = " ++ (if scope = "all" then "\"all\""
      else "[" ++ ", ".intercalate ((scopeItems scope).map fun x => "\"" ++ x ++ "\"") ++ "]") ++
      "\n").toList = scopeLine scope := by
  unfold scopeLine
  split
  · simp
  · obtain ⟨it, its, hits⟩ := List.exists_cons_of_ne_nil (scopeItems_ne_nil scope)
    simp only [hits, String.toList_append, List.append_assoc]
    rw [show "]".toList ++ "\n".toList = [']', '\n'] from rfl, toList_joinItems]
    rfl

theorem toList_renderViewerEntry (name hash scope : String) :
    (renderViewerEntry name hash scope).toList =
      '\n' :: (tableOpening "viewer" ++ stringLines (viewerLines name hash) (scopeLine scope)) := by
  rw [← toList_scope]
  unfold renderViewerEntry
  generalize (if scope = "all" then _ else _ : String) = scopeToml
  simp [tableOpening, stringLines, stringOpening, viewerLines]

/-! ## What is read of an entry -/

theorem opensTable_camera : OpensTable "camera" := rfl

theorem opensTable_viewer : OpensTable "viewer" := rfl

variable {name hash scope text : String} {username : Option String} {requireTls : Bool}
  {old : FileConfig}

theorem opensLine_camera : ∀ f ∈ cameraLines name username hash, OpensLine f.1 := by
  have hopens : ∀ k ∈ ["name", "username", "upload_password_hash"], OpensLine k := by
    simp only [List.forall_mem_cons, List.not_mem_nil, false_imp_iff, implies_true, and_true]
    exact ⟨⟨rfl, fun y => ⟨'n', _, rfl, .inl rfl⟩⟩, ⟨rfl, fun y => ⟨'u', _, rfl, .inl rfl⟩⟩,
      ⟨rfl, fun y => ⟨'u', _, rfl, .inl rfl⟩⟩⟩
  intro f hf
  refine hopens f.1 ?_
  cases username with
  | none =>
      simp only [cameraLines, Option.toList_none, List.map_nil, List.cons_append, List.nil_append,
        List.mem_cons, List.not_mem_nil, or_false] at hf
      rcases hf with rfl | rfl <;> simp
  | some u =>
      simp only [cameraLines, Option.toList_some, List.map_cons, List.map_nil, List.cons_append,
        List.nil_append, List.mem_cons, List.not_mem_nil, or_false] at hf
      rcases hf with rfl | rfl | rfl <;> simp

theorem opensLine_viewer : ∀ f ∈ viewerLines name hash, OpensLine f.1 := by
  simp only [viewerLines, List.forall_mem_cons, List.not_mem_nil, false_imp_iff, implies_true,
    and_true]
  exact ⟨⟨rfl, fun y => ⟨'n', _, rfl, .inl rfl⟩⟩, ⟨rfl, fun y => ⟨'p', _, rfl, .inl rfl⟩⟩⟩

theorem forall_mem_cameraLines {P : String → Prop} :
    (∀ f ∈ cameraLines name username hash, P f.2) ↔ P name ∧ (∀ u ∈ username, P u) ∧ P hash := by
  cases username <;> simp [cameraLines]

theorem forall_mem_viewerLines {P : String → Prop} :
    (∀ f ∈ viewerLines name hash, P f.2) ↔ P name ∧ P hash := by
  simp [viewerLines]

theorem begins_tlsLine : Begins (tlsLine requireTls ++ ['\n']) := by
  cases requireTls
  · exact ⟨'\n', _, rfl, .inr rfl⟩
  · exact ⟨'r', _, rfl, .inl rfl⟩

theorem getLast?_tlsLine : (tlsLine requireTls).getLast? ≠ some '\r' := by
  cases requireTls <;> simp [tlsLine]

/-- The entry that the last line of a camera is. -/
def tlsEntries (requireTls : Bool) : Table :=
  if requireTls then [("require_tls", .boolean true)] else []

theorem statements_tlsLine : statements .line (tlsLine requireTls ++ ['\n']) =
    some (.line, (tlsEntries requireTls).map fun e => .pair [e.1] e.2) := by
  cases requireTls <;> rfl

/-- A camera that was asked for has the strings of its lines. -/
theorem get_of_cameraCfg {kind : TableKind} {t : Table}
    (h : cameraCfg (.table kind t) = some (askedCamera name username hash requireTls)) :
    ∀ f ∈ cameraLines name username hash, Table.get f.1 t = some (.string f.2) := by
  obtain ⟨hname, husername, hhash, -⟩ := cameraCfg_table.mp h
  cases username with
  | none => simpa [cameraLines] using ⟨hname, hhash⟩
  | some u =>
      obtain ⟨n, hn, hs⟩ := omittable_eq_some.mp husername
      rw [Node.string?_eq_some.mp hs] at hn
      simpa [cameraLines] using ⟨hname, hn, hhash⟩

/-- The lines of a camera make the camera that was asked for. -/
theorem cameraCfg_lines : cameraCfg
    (.table .header (stringEntries (cameraLines name username hash) ++ tlsEntries requireTls)) =
      some (askedCamera name username hash requireTls) := by
  rw [cameraCfg_table]
  cases username <;> cases requireTls <;>
    simp [stringEntries, cameraLines, tlsEntries, Table.get, askedCamera, omittable, defaulted,
      Node.string?, Node.bool?]

theorem nodup_cameraLines :
    ((stringEntries (cameraLines name username hash) ++ tlsEntries requireTls).map
      Prod.fst).Nodup := by
  cases username <;> cases requireTls <;> simp [stringEntries, cameraLines, tlsEntries]

theorem fromStr_append {entry : String} {k : String} {y : List Char}
    (he : entry.toList = '\n' :: (tableOpening k ++ y)) :
    fromStr (text ++ entry) =
      (read (documentChars text ++ '\n' :: (tableOpening k ++ y))).bind fun d =>
        fileConfig d.root := by
  have hhead : entry.toList.head? ≠ some byteOrderMark := by
    rw [he, List.head?_cons]
    decide
  rw [fromStr, documentChars_append hhead, he]

/-- No header adds a table to an array that is a value. -/
theorem not_writesArray {k : String} {y : List Char} {d d' : Doc} (hk : OpensTable k)
    (hy : y.getLast? ≠ some '\r') (hd : read (documentChars text) = some d)
    (hd' : read (documentChars text ++ '\n' :: (tableOpening k ++ y)) = some d') :
    ¬ WritesArray text k := by
  rintro ⟨d₀, items, hd₀, hitems⟩
  cases hd.symm.trans hd₀
  obtain ⟨d₁, ss, hd₁, -, -⟩ := (read_table hk hd hy).mp hd'
  obtain ⟨ts, -, ⟨hn, -⟩ | hs, -⟩ := Doc.atLast_of_arrayTable hd₁
  · cases hn.symm.trans hitems
  · cases hs.symm.trans hitems

theorem not_writesArray_of_fromStr {entry : String} {k : String} {y : List Char} {c : FileConfig}
    (h : fromStr text = some old) (he : entry.toList = '\n' :: (tableOpening k ++ y))
    (hk : OpensTable k) (hy : y.getLast? ≠ some '\r') (h' : fromStr (text ++ entry) = some c) :
    ¬ WritesArray text k := by
  obtain ⟨d, hd, -⟩ := Option.bind_eq_some_iff.mp h
  rw [fromStr_append he] at h'
  obtain ⟨d', hd', -⟩ := Option.bind_eq_some_iff.mp h'
  exact not_writesArray hk hy hd hd'

/-- **A rendered camera is read as what was asked for exactly if its strings are plain**, and
the text does not write the cameras as an array. -/
theorem camera_entry_iff (h : fromStr text = some old) :
    fromStr (text ++ renderCameraEntry name username hash requireTls) =
        some (old.addCamera (askedCamera name username hash requireTls)) ↔
      ¬ WritesArray text "camera" ∧ Plain name ∧ (∀ u ∈ username, Plain u) ∧ Plain hash := by
  obtain ⟨d, hd, hold⟩ := Option.bind_eq_some_iff.mp h
  have hcams := (fileConfig_eq_some.mp hold).2.2.2.1
  have hlast : (stringLines (cameraLines name username hash) (tlsLine requireTls)).getLast? ≠
      some '\r' := getLast?_stringLines getLast?_tlsLine
  rw [fromStr_append (toList_renderCameraEntry name username hash requireTls),
    Option.bind_eq_some_iff, ← forall_mem_cameraLines (P := Plain)]
  constructor
  · rintro ⟨d', hd', hnew⟩
    obtain ⟨ts, ts', kind, t, hts, hget, hlen, himp⟩ :=
      plain_of_table opensTable_camera opensLine_camera begins_tlsLine hd hlast hd'
    have hnewCams := (fileConfig_eq_some.mp hnew).2.2.2.1
    rw [hget] at hnewCams
    have hcam := read_last hcams hts hnewCams hlen
    exact ⟨not_writesArray opensTable_camera hlast hd hd', (himp (get_of_cameraCfg hcam)).1⟩
  · rintro ⟨harray, hplain⟩
    obtain ⟨ts, hts⟩ := defaulted_vec? hcams fun items hitems => harray ⟨d, items, hd, hitems⟩
    refine ⟨_, read_plainTable opensTable_camera
      (fun f hf => ⟨opensLine_camera f hf, hplain f hf⟩) hd hlast statements_tlsLine
      nodup_cameraLines hts, ?_⟩
    rw [FileConfig.addCamera, fileConfig_withCameras hold fun k hk => Table.get_set_of_ne hk,
      Table.get_set]
    simp [defaulted, Node.vec?, mapM_of_defaulted hcams hts, cameraCfg_lines]

/-! ## Viewers -/

/-- The value of the last line of a viewer. -/
def scopeNode (scope : String) : Node :=
  if scope = "all" then .string "all" else .array ((scopeItems scope).map .string)

theorem scope?_scopeNode : scope? (scopeNode scope) = some (askedScope scope) := by
  unfold scopeNode askedScope
  split
  · rfl
  · simp [scope?, Node.vec?, mapM_string?.mpr rfl]

theorem scopeLine_of_ne (h : scope ≠ "all") {it : String} {its : List String}
    (hits : scopeItems scope = it :: its) (y : List Char) :
    scopeLine scope ++ y = scopeOpening ++ arrayText it its ('\n' :: y) := by
  simp [scopeLine, h, hits, arrayText_append]

theorem statements_scopeOpening : statements .line scopeOpening =
    some (.value ["scope"] [.array []] (.basic .one), []) := rfl

theorem begins_scopeLine : Begins (scopeLine scope ++ ['\n']) := by
  by_cases hall : scope = "all"
  · simp only [scopeLine, hall, if_true]
    exact ⟨'s', _, rfl, .inl rfl⟩
  · obtain ⟨it, its, hits⟩ := List.exists_cons_of_ne_nil (scopeItems_ne_nil scope)
    rw [scopeLine_of_ne hall hits]
    exact ⟨'s', _, rfl, .inl rfl⟩

theorem getLast?_scopeLine : (scopeLine scope).getLast? ≠ some '\r' := by
  rw [← toList_scope, String.toList_append, show "\n".toList = ['\n'] from rfl,
    List.getLast?_concat]
  simp

theorem statements_scopeLine (h : scope ≠ "all" → ∀ it ∈ scopeItems scope, Plain it) :
    statements .line (scopeLine scope ++ ['\n']) =
      some (.line, [("scope", scopeNode scope)].map fun e => .pair [e.1] e.2) := by
  by_cases hall : scope = "all"
  · simp only [scopeLine, scopeNode, hall, if_true]
    rfl
  · obtain ⟨it, its, hits⟩ := List.exists_cons_of_ne_nil (scopeItems_ne_nil scope)
    rw [scopeLine_of_ne hall hits, statements_behind statements_scopeOpening,
      statements_array (hits ▸ h hall)]
    simp only [scopeNode, hall, hits, if_false]
    rfl

/-- A list of items that is read as the items has no items that are not plain. -/
theorem plain_of_scopeLine {ss : List Statement} (hall : scope ≠ "all")
    (h : statements .line (scopeLine scope ++ ['\n']) = some (.line, ss)) :
    ∃ items' ss', ss = .pair ["scope"] (.array items') :: ss' ∧
      (items' = (scopeItems scope).map .string → ∀ it ∈ scopeItems scope, Plain it) := by
  obtain ⟨it, its, hits⟩ := List.exists_cons_of_ne_nil (scopeItems_ne_nil scope)
  rw [scopeLine_of_ne hall hits] at h
  obtain ⟨ss', hs, rfl⟩ := statements_split statements_scopeOpening h
  rw [hits]
  simpa using plain_of_array hs (by simp)

theorem viewerCfg_lines : viewerCfg
    (.table .header (stringEntries (viewerLines name hash) ++ [("scope", scopeNode scope)])) =
      some ⟨name, hash, askedScope scope⟩ := by
  rw [viewerCfg_table]
  simp [stringEntries, viewerLines, Table.get, scope?_scopeNode]

/-- **A rendered viewer is read as what was asked for exactly if its strings are plain**, and
the text does not write the viewers as an array. -/
theorem viewer_entry_iff (h : fromStr text = some old) :
    fromStr (text ++ renderViewerEntry name hash scope) =
        some (old.addViewer ⟨name, hash, askedScope scope⟩) ↔
      ¬ WritesArray text "viewer" ∧ (Plain name ∧ Plain hash) ∧
        (scope ≠ "all" → ∀ it ∈ scopeItems scope, Plain it) := by
  obtain ⟨d, hd, hold⟩ := Option.bind_eq_some_iff.mp h
  have hviewers := (fileConfig_eq_some.mp hold).2.2.2.2.2.1
  have hlast : (stringLines (viewerLines name hash) (scopeLine scope)).getLast? ≠ some '\r' :=
    getLast?_stringLines getLast?_scopeLine
  rw [fromStr_append (toList_renderViewerEntry name hash scope),
    Option.bind_eq_some_iff, ← forall_mem_viewerLines (P := Plain)]
  constructor
  · rintro ⟨d', hd', hnew⟩
    obtain ⟨ts, ts', kind, t, hts, hget, hlen, himp⟩ :=
      plain_of_table opensTable_viewer opensLine_viewer begins_scopeLine hd hlast hd'
    have hnewViewers := (fileConfig_eq_some.mp hnew).2.2.2.2.2.1
    rw [hget] at hnewViewers
    obtain ⟨hname, hhash, n, hn, hs⟩ :=
      viewerCfg_table.mp (read_last hviewers hts hnewViewers hlen)
    obtain ⟨hplain, ss, d₂, t₂, hss, hat, he⟩ := himp (by simpa [viewerLines] using ⟨hname, hhash⟩)
    refine ⟨not_writesArray opensTable_viewer hlast hd hd', hplain, fun hall => ?_⟩
    obtain ⟨items', ss', rfl, hitems⟩ := plain_of_scopeLine hall hss
    obtain ⟨d₃, hd₃, he₃⟩ := Option.bind_eq_some_iff.mp he
    -- the array is the scope of the viewer for good
    have hfound := (Doc.execAll_keeps he₃).array ((hat.pair hd₃).find.trans Table.get_set)
    have hn' : n = .array items' := by
      simpa [Doc.node, Node.find, Node.child, hget, hlen, hn] using hfound
    rw [hn'] at hs
    simp only [askedScope, hall, if_false] at hs
    rcases scope?_list hs with he' | ⟨ts, he'⟩
    · cases he'
      exact hitems rfl
    · cases he'
  · rintro ⟨harray, hplain, hitems⟩
    obtain ⟨ts, hts⟩ := defaulted_vec? hviewers fun items hi => harray ⟨d, items, hd, hi⟩
    refine ⟨_, read_plainTable opensTable_viewer
      (fun f hf => ⟨opensLine_viewer f hf, hplain f hf⟩) hd hlast (statements_scopeLine hitems)
      (by simp [stringEntries, viewerLines]) hts, ?_⟩
    rw [FileConfig.addViewer, fileConfig_withViewers hold fun k hk => Table.get_set_of_ne hk,
      Table.get_set]
    simp [defaulted, Node.vec?, mapM_of_defaulted hviewers hts, viewerCfg_lines]

/-! ## A site -/

/-- A configuration with one camera. -/
def siteLines : List String :=
  ["[server]",
   "listen = \"0.0.0.0\"",
   "port = 21",
   "passive_ports = [50000, 50100]",
   "[archive]",
   "root = \"/srv/reolink\"",
   "retention_days = 30",
   "[limits]",
   "max_connections = 256",
   "max_connections_per_ip = 8",
   "new_conns_per_min_per_ip = 30",
   "idle_timeout_secs = 120",
   "min_transfer_rate_bytes_per_sec = 1024",
   "failed_login_lockout = \x7b max_attempts = 5, window_secs = 300, ban_secs = 900 \x7d",
   "[[camera]]",
   "name = \"front-door\"",
   "upload_password_hash = \"$argon2id$x\""]

/-- The characters of its text. -/
def siteChars : List Char := siteLines.flatMap fun l => l.toList ++ ['\n']

/-- Its text. -/
def siteText : String := String.ofList siteChars

theorem documentChars_site : documentChars siteText = siteChars := by
  have hhead : siteChars.head? ≠ some byteOrderMark := by decide +kernel
  rw [documentChars, siteText, String.toList_ofList, if_neg hhead]

/-- The site is valid, has one camera and no viewer, and room for more of both. -/
theorem site_loads : ∃ old, fromStr siteText = some old ∧
    old.config.validate shiftAge = .ok () ∧
    old.config.camera.map CameraCfg.name = ["front-door"] ∧
    old.config.camera.map CameraCfg.login = ["front-door"] ∧
    old.config.viewer.map ViewerCfg.name = [] ∧
    ¬ WritesArray siteText "camera" ∧ ¬ WritesArray siteText "viewer" := by
  have hread : ((read siteChars).any fun d =>
      !(Table.get "camera" d.root).any Node.isArray &&
        !(Table.get "viewer" d.root).any Node.isArray &&
        (fileConfig d.root).any fun c => c.config.validate shiftAge = .ok () &&
          c.config.camera.map CameraCfg.name = ["front-door"] &&
          c.config.camera.map CameraCfg.login = ["front-door"] &&
          c.config.viewer.map ViewerCfg.name = []) = true := by
    decide +kernel
  obtain ⟨d, hd, h⟩ := (Option.any_eq_true ..).mp hread
  simp only [Bool.and_eq_true, Bool.not_eq_true'] at h
  obtain ⟨⟨hcamera, hviewer⟩, h⟩ := h
  obtain ⟨old, hold, h⟩ := (Option.any_eq_true ..).mp h
  simp only [Bool.and_eq_true, decide_eq_true_eq] at h
  obtain ⟨⟨⟨hvalid, hnames⟩, hlogins⟩, hviewers⟩ := h
  refine ⟨old, ?_, hvalid, hnames, hlogins, hviewers, ?_, ?_⟩
  · rw [fromStr, documentChars_site, hd]
    exact hold
  · rw [writesArray_iff, documentChars_site, hd]
    simpa using hcamera
  · rw [writesArray_iff, documentChars_site, hd]
    simpa using hviewer

/-- **What an entry says is what was asked for exactly if its strings are plain**, for a
text that does not write the accounts of its kind as an array. -/
theorem rendered_entries_iff (h : fromStr text = some old) :
    (∀ name username hash requireTls,
      fromStr (text ++ renderCameraEntry name username hash requireTls) =
          some (old.addCamera (askedCamera name username hash requireTls)) ↔
        ¬ WritesArray text "camera" ∧ Plain name ∧ (∀ u ∈ username, Plain u) ∧ Plain hash) ∧
    ∀ name hash scope,
      fromStr (text ++ renderViewerEntry name hash scope) =
          some (old.addViewer ⟨name, hash, askedScope scope⟩) ↔
        ¬ WritesArray text "viewer" ∧ (Plain name ∧ Plain hash) ∧
          (scope ≠ "all" → ∀ it ∈ scopeItems scope, Plain it) :=
  ⟨fun _ _ _ _ => camera_entry_iff h, fun _ _ _ => viewer_entry_iff h⟩

/-- The driveway and the patio of the site. -/
theorem rendered_entries_site : ∃ old, fromStr siteText = some old ∧
    fromStr (siteText ++ renderCameraEntry "driveway" (some "cam-dw") "$argon2id$y" true) =
      some (old.addCamera ⟨"driveway", some "cam-dw", "$argon2id$y", some true⟩) ∧
    fromStr (siteText ++ renderViewerEntry "patio" "$argon2id$z" "outdoor, front-door") =
      some (old.addViewer ⟨"patio", "$argon2id$z", .list ["outdoor", "front-door"]⟩) := by
  obtain ⟨old, h, -, -, -, -, hcamera, hviewer⟩ := site_loads
  obtain ⟨hcam, hview⟩ := rendered_entries_iff h
  have hscope : askedScope "outdoor, front-door" = .list ["outdoor", "front-door"] := by
    rw [askedScope, if_neg (by decide)]
    exact congrArg _ (by decide)
  refine ⟨old, h, (hcam "driveway" (some "cam-dw") "$argon2id$y" true).mpr
    ⟨hcamera, by decide, by decide, by decide⟩, hscope ▸ (hview "patio" "$argon2id$z" _).mpr
    ⟨hviewer, ⟨by decide, by decide⟩, fun _ => by decide⟩⟩

/-- A camera name that closes its own string. -/
def splicedName : String := "x\"\nupload_password_hash = \"h\"\n[[camera]]\nname = \"y"

/-- **An entry can add two cameras**, neither of them with the name that was asked for. -/
theorem spliced_name : ∃ old, fromStr siteText = some old ∧
    fromStr (siteText ++ renderCameraEntry splicedName none "$argon2id$y" false) ≠
      some (old.addCamera (askedCamera splicedName none "$argon2id$y" false)) ∧
    ((fromStr (siteText ++ renderCameraEntry splicedName none "$argon2id$y" false)).map fun c =>
      c.config.camera.map CameraCfg.name) = some ["front-door", "x", "y"] := by
  obtain ⟨old, h, -⟩ := site_loads
  have hnames : ((fromStr (siteText ++ renderCameraEntry splicedName none "$argon2id$y" false)).map
      fun c => c.config.camera.map CameraCfg.name) = some ["front-door", "x", "y"] := by
    rw [fromStr_append (toList_renderCameraEntry ..), documentChars_site]
    decide +kernel
  refine ⟨old, h, fun he => ?_, hnames⟩
  rw [he] at hnames
  have hlast := congrArg (fun names => names.bind List.getLast?) hnames
  simp [FileConfig.addCamera, FileConfig.withCameras, askedCamera, splicedName] at hlast

/-! ## Plain entries -/

variable {c : FileConfig}

/-- What is read of a camera whose strings are plain. -/
theorem fromStr_camera (h : fromStr text = some old) (hn : Plain name)
    (hu : ∀ u ∈ username, Plain u) (hh : Plain hash) :
    fromStr (text ++ renderCameraEntry name username hash requireTls) = some c ↔
      ¬ WritesArray text "camera" ∧
        c = old.addCamera (askedCamera name username hash requireTls) := by
  constructor
  · intro hc
    have harray := not_writesArray_of_fromStr h
      (toList_renderCameraEntry name username hash requireTls) opensTable_camera
      (getLast?_stringLines getLast?_tlsLine) hc
    exact ⟨harray, Option.some.inj
      (hc.symm.trans ((camera_entry_iff h).mpr ⟨harray, hn, hu, hh⟩))⟩
  · rintro ⟨harray, rfl⟩
    exact (camera_entry_iff h).mpr ⟨harray, hn, hu, hh⟩

/-- What is read of a viewer whose strings are plain. -/
theorem fromStr_viewer (h : fromStr text = some old) (hn : Plain name) (hh : Plain hash)
    (hs : scope ≠ "all" → ∀ it ∈ scopeItems scope, Plain it) :
    fromStr (text ++ renderViewerEntry name hash scope) = some c ↔
      ¬ WritesArray text "viewer" ∧ c = old.addViewer ⟨name, hash, askedScope scope⟩ := by
  constructor
  · intro hc
    have harray := not_writesArray_of_fromStr h (toList_renderViewerEntry name hash scope)
      opensTable_viewer (getLast?_stringLines getLast?_scopeLine) hc
    exact ⟨harray, Option.some.inj
      (hc.symm.trans ((viewer_entry_iff h).mpr ⟨harray, ⟨hn, hh⟩, hs⟩))⟩
  · rintro ⟨harray, rfl⟩
    exact (viewer_entry_iff h).mpr ⟨harray, ⟨hn, hh⟩, hs⟩

end Reoftpd
