import Reoftpd.Config

/-!
# What a refused configuration is told

`Config::validate` is six checks one after the other, each a loop that returns at the first
thing it finds wrong.  What can be wrong with a configuration is said here without the loops
(`Offends`), together with the text each offence is reported with.

**A configuration is refused for what is wrong with it** (`load_verdict`): `load` fails with
the text of an offence the configuration has, and no check that comes before the one that
failed has anything to report; a configuration without offences is loaded.  The reason is
that each loop returns the first of all that it could have reported, and that one check
reports after another (`validate_eq`).
-/
namespace Reoftpd

/-! ## Offences -/

/-- Something wrong with a configuration. -/
inductive Offence where
  | ports
  | cameraName (name : String)
  | username (login : String)
  | member (group camera : String)
  | viewerName (name : String)
  | collision (name : String)
  | item (viewer it : String)
  | noRecipients
  | recipient (text reason : String)

/-- The text it is reported with. -/
def Offence.text : Offence → String
  | .ports => "passive_ports must be ordered"
  | .cameraName name => "duplicate camera name " ++ name
  | .username login => "duplicate username " ++ login
  | .member group camera => "group " ++ group ++ " references unknown camera " ++ camera
  | .viewerName name => "duplicate viewer name " ++ name
  | .collision name => "viewer name " ++ name ++ " collides with a camera login"
  | .item viewer it => "viewer " ++ viewer ++ " scope references unknown " ++ it
  | .noRecipients => "[encryption].recipients must be non-empty"
  | .recipient text reason => "[encryption]: invalid age recipient: " ++ (text ++ ": " ++ reason)

/-- The check that finds it. -/
def Offence.check : Offence → Nat
  | .ports => 0
  | .cameraName _ | .username _ => 1
  | .member _ _ => 2
  | .viewerName _ | .collision _ => 3
  | .item _ _ => 4
  | .noRecipients | .recipient _ _ => 5

/-- **What is wrong with a configuration.** -/
inductive Offends (age : Age) (cfg : Config) : Offence → Prop where
  | ports : cfg.server.passivePorts.2 < cfg.server.passivePorts.1 → Offends age cfg .ports
  | cameraName (pre post : List CameraCfg) (cam : CameraCfg) : cfg.camera = pre ++ cam :: post →
      cam.name ∈ pre.map CameraCfg.name → Offends age cfg (.cameraName cam.name)
  | username (pre post : List CameraCfg) (cam : CameraCfg) : cfg.camera = pre ++ cam :: post →
      cam.login ∈ pre.map CameraCfg.login → Offends age cfg (.username cam.login)
  | member (g : String) (members : List String) (m : String) :
      cfg.group.lookup g = some members → m ∈ members → m ∉ cfg.camera.map CameraCfg.name →
      Offends age cfg (.member g m)
  | viewerName (pre post : List ViewerCfg) (v : ViewerCfg) : cfg.viewer = pre ++ v :: post →
      v.name ∈ pre.map ViewerCfg.name → Offends age cfg (.viewerName v.name)
  | collision (v : ViewerCfg) : v ∈ cfg.viewer → v.name ∈ cfg.camera.map CameraCfg.login →
      Offends age cfg (.collision v.name)
  | item (v : ViewerCfg) (items : List String) (it : String) : v ∈ cfg.viewer →
      v.scope = .list items → it ∈ items → it ∉ cfg.camera.map CameraCfg.name →
      cfg.group.lookup it = none → Offends age cfg (.item v.name it)
  | noRecipients (enc : EncryptionCfg) : cfg.encryption = some enc → enc.recipients = [] →
      Offends age cfg .noRecipients
  | recipient (enc : EncryptionCfg) (s e : String) : cfg.encryption = some enc →
      s ∈ enc.recipients → age.parseRecipient (trim s) = .error e →
      Offends age cfg (.recipient s e)

/-! ## All of them, in the order of the checks -/

/-- What the elements of a list have wrong, each seen with those before it. -/
def eachAfter {A : Type} (wrong : List A → A → List Offence) (pre : List A) :
    List A → List Offence
  | [] => []
  | a :: rest => wrong pre a ++ eachAfter wrong (pre ++ [a]) rest

theorem mem_eachAfter {A : Type} {wrong : List A → A → List Offence} {pre l : List A}
    {o : Offence} :
    o ∈ eachAfter wrong pre l ↔ ∃ before a after, l = before ++ a :: after ∧
      o ∈ wrong (pre ++ before) a := by
  induction l generalizing pre with
  | nil => simp [eachAfter]
  | cons x rest ih =>
      rw [eachAfter, List.mem_append, ih]
      constructor
      · rintro (h | ⟨before, a, after, rfl, h⟩)
        · exact ⟨[], x, rest, rfl, by simpa using h⟩
        · exact ⟨x :: before, a, after, rfl, by simpa using h⟩
      · rintro ⟨_ | ⟨y, before⟩, a, after, heq, h⟩
        · obtain ⟨rfl, rfl⟩ := List.cons.inj heq
          exact Or.inl (by simpa using h)
        · obtain ⟨rfl, rfl⟩ := List.cons.inj heq
          exact Or.inr ⟨before, a, after, rfl, by simpa using h⟩

/-- A camera with the name or the login of an earlier one. -/
def cameraWrong (pre : List CameraCfg) (cam : CameraCfg) : List Offence :=
  (if cam.name ∈ pre.map CameraCfg.name then [.cameraName cam.name] else []) ++
    if cam.login ∈ pre.map CameraCfg.login then [.username cam.login] else []

/-- The members of a group that are no cameras. -/
def groupWrong (names : List String) (g : Sigma fun _ : String => List String) : List Offence :=
  (g.2.filter fun m => m ∉ names).map (.member g.1)

/-- A viewer with the name of an earlier one, or a camera's login. -/
def viewerWrong (logins : List String) (pre : List ViewerCfg) (v : ViewerCfg) : List Offence :=
  (if v.name ∈ pre.map ViewerCfg.name then [.viewerName v.name] else []) ++
    if v.name ∈ logins then [.collision v.name] else []

/-- The items of a scope that are neither cameras nor groups. -/
def scopeWrong (names : List String) (group : AList fun _ : String => List String)
    (v : ViewerCfg) : List Offence :=
  match v.scope with
  | .all => []
  | .list items =>
      (items.filter fun it => ¬ (it ∈ names ∨ (group.lookup it).isSome)).map (.item v.name)

/-- The recipients that cannot be parsed. -/
def recipientWrong (age : Age) (s : String) : List Offence :=
  match age.parseRecipient (trim s) with
  | .ok _ => []
  | .error e => [.recipient s e]

/-- No recipients, or some that cannot be parsed. -/
def encryptionWrong (age : Age) : Option EncryptionCfg → List Offence
  | none => []
  | some enc =>
      if enc.recipients = [] then [.noRecipients] else enc.recipients.flatMap (recipientWrong age)

/-- All that is wrong with a configuration. -/
def Config.offences (age : Age) (cfg : Config) : List Offence :=
  (if cfg.server.passivePorts.1 > cfg.server.passivePorts.2 then [.ports] else []) ++
    (eachAfter cameraWrong [] cfg.camera ++
      (cfg.group.entries.flatMap (groupWrong (cfg.camera.map CameraCfg.name)) ++
        (eachAfter (viewerWrong (cfg.camera.map CameraCfg.login)) [] cfg.viewer ++
          (cfg.viewer.flatMap (scopeWrong (cfg.camera.map CameraCfg.name) cfg.group) ++
            encryptionWrong age cfg.encryption))))

section Members
variable {age : Age} {cfg : Config} {o : Offence}

theorem mem_cameraWrong {pre : List CameraCfg} {cam : CameraCfg} :
    o ∈ cameraWrong pre cam ↔
      cam.name ∈ pre.map CameraCfg.name ∧ o = .cameraName cam.name ∨
        cam.login ∈ pre.map CameraCfg.login ∧ o = .username cam.login := by
  simp only [cameraWrong, List.mem_append, List.mem_ite_nil_right, List.mem_singleton]

theorem mem_viewerWrong {logins : List String} {pre : List ViewerCfg} {v : ViewerCfg} :
    o ∈ viewerWrong logins pre v ↔
      v.name ∈ pre.map ViewerCfg.name ∧ o = .viewerName v.name ∨
        v.name ∈ logins ∧ o = .collision v.name := by
  simp only [viewerWrong, List.mem_append, List.mem_ite_nil_right, List.mem_singleton]

theorem mem_groupWrong {names : List String} {g : Sigma fun _ : String => List String} :
    o ∈ groupWrong names g ↔ ∃ m ∈ g.2, m ∉ names ∧ o = .member g.1 m := by
  simp only [groupWrong, List.mem_map, List.mem_filter, decide_eq_true_eq, and_assoc,
    @eq_comm _ o]

theorem mem_scopeWrong {names : List String} {group : AList fun _ : String => List String}
    {v : ViewerCfg} :
    o ∈ scopeWrong names group v ↔ ∃ items, v.scope = .list items ∧ ∃ it ∈ items,
      it ∉ names ∧ group.lookup it = none ∧ o = .item v.name it := by
  unfold scopeWrong
  cases v.scope with
  | all => simp
  | list items =>
      simp only [List.mem_map, List.mem_filter, decide_eq_true_eq, not_or, and_assoc,
        Option.not_isSome_iff_eq_none, Scope.list.injEq, exists_eq_left', @eq_comm _ o]

theorem mem_encryptionWrong {enc : Option EncryptionCfg} :
    o ∈ encryptionWrong age enc ↔ ∃ e, enc = some e ∧ (e.recipients = [] ∧ o = .noRecipients ∨
      ∃ s ∈ e.recipients, ∃ err, age.parseRecipient (trim s) = .error err ∧
        o = .recipient s err) := by
  cases enc with
  | none => simp [encryptionWrong]
  | some enc =>
      rw [encryptionWrong]
      split
      · rename_i hnil
        simp [hnil]
      · rename_i hne
        simp only [List.mem_flatMap, Option.some.injEq, exists_eq_left', hne, false_and, false_or]
        refine exists_congr fun s => and_congr_right fun _ => ?_
        unfold recipientWrong
        cases age.parseRecipient (trim s) <;> simp

/-- **The list has just what is wrong.** -/
theorem mem_offences : o ∈ cfg.offences age ↔ Offends age cfg o := by
  simp only [Config.offences, List.mem_append, List.mem_ite_nil_right, List.mem_singleton,
    mem_eachAfter, List.nil_append, mem_cameraWrong, List.mem_flatMap, mem_groupWrong,
    mem_viewerWrong, mem_scopeWrong, mem_encryptionWrong]
  constructor
  · rintro (⟨hports, rfl⟩ | ⟨pre, cam, post, heq, ⟨hmem, rfl⟩ | ⟨hmem, rfl⟩⟩ |
      ⟨g, hg, m, hm, hname, rfl⟩ | ⟨pre, v, post, heq, ⟨hmem, rfl⟩ | ⟨hmem, rfl⟩⟩ |
      ⟨v, hv, items, hs, it, hit, hname, hgroup, rfl⟩ |
      ⟨enc, henc, ⟨hnil, rfl⟩ | ⟨s, hs, e, he, rfl⟩⟩)
    · exact .ports hports
    · exact .cameraName pre post cam heq hmem
    · exact .username pre post cam heq hmem
    · exact .member g.1 g.2 m (AList.mem_lookup_iff.mpr hg) hm hname
    · exact .viewerName pre post v heq hmem
    · exact .collision v (by simp [heq]) hmem
    · exact .item v items it hv hs hit hname hgroup
    · exact .noRecipients enc henc hnil
    · exact .recipient enc s e henc hs he
  · intro h
    cases h with
    | ports h => exact Or.inl ⟨h, rfl⟩
    | cameraName pre post cam heq h =>
        exact Or.inr (Or.inl ⟨pre, cam, post, heq, Or.inl ⟨h, rfl⟩⟩)
    | username pre post cam heq h =>
        exact Or.inr (Or.inl ⟨pre, cam, post, heq, Or.inr ⟨h, rfl⟩⟩)
    | member g members m hg hm hname =>
        exact Or.inr (Or.inr (Or.inl ⟨⟨g, members⟩, AList.mem_lookup_iff.mp hg, m, hm, hname, rfl⟩))
    | viewerName pre post v heq h =>
        exact Or.inr (Or.inr (Or.inr (Or.inl ⟨pre, v, post, heq, Or.inl ⟨h, rfl⟩⟩)))
    | collision v hv h =>
        obtain ⟨pre, post, heq⟩ := List.append_of_mem hv
        exact Or.inr (Or.inr (Or.inr (Or.inl ⟨pre, v, post, heq, Or.inr ⟨h, rfl⟩⟩)))
    | item v items it hv hs hit hname hgroup =>
        exact Or.inr (Or.inr (Or.inr (Or.inr (Or.inl
          ⟨v, hv, items, hs, it, hit, hname, hgroup, rfl⟩))))
    | noRecipients enc henc hnil =>
        exact Or.inr (Or.inr (Or.inr (Or.inr (Or.inr ⟨enc, henc, Or.inl ⟨hnil, rfl⟩⟩))))
    | recipient enc s e henc hs he =>
        exact Or.inr (Or.inr (Or.inr (Or.inr (Or.inr
          ⟨enc, henc, Or.inr ⟨s, hs, e, he, rfl⟩⟩))))

end Members

/-! ## The checks report the first -/

/-- The report of the first of some offences. -/
def report : List Offence → Except ConfigError Unit
  | [] => .ok ()
  | o :: _ => .error (.invalid o.text)

theorem report_append (a b : List Offence) : report (a ++ b) = report a >>= fun _ => report b := by
  cases a <;> rfl

section Loops
variable {age : Age} {names logins : List String} {group : AList fun _ : String => List String}

theorem checkCameras_eq (pre cams : List CameraCfg) :
    checkCameras (pre.map CameraCfg.name).reverse (pre.map CameraCfg.login).reverse cams =
      report (eachAfter cameraWrong pre cams) >>= fun _ =>
        .ok (((pre ++ cams).map CameraCfg.name).reverse,
          ((pre ++ cams).map CameraCfg.login).reverse) := by
  induction cams generalizing pre with
  | nil =>
      rw [List.append_nil]
      rfl
  | cons cam cams ih =>
      have hnext := ih (pre ++ [cam])
      simp only [List.map_append, List.map_cons, List.map_nil, List.reverse_append,
        List.reverse_singleton, List.singleton_append, List.append_assoc] at hnext
      rw [checkCameras, eachAfter]
      simp only [List.mem_reverse]
      split
      · rename_i hname
        rw [cameraWrong, if_pos hname]
        rfl
      · rename_i hname
        split
        · rename_i hlogin
          rw [cameraWrong, if_neg hname, if_pos hlogin]
          rfl
        · rename_i hlogin
          simp only [cameraWrong, if_neg hname, if_neg hlogin, List.nil_append]
          simpa using hnext

theorem checkMembers_eq (g : String) (members : List String) :
    checkMembers names g members = report (groupWrong names ⟨g, members⟩) := by
  induction members with
  | nil => rfl
  | cons m members ih =>
      rw [checkMembers]
      split
      · rename_i hm
        rw [ih]
        simp [groupWrong, hm]
      · rename_i hm
        rw [groupWrong, List.filter_cons_of_pos (by simpa using hm)]
        rfl

theorem checkGroups_eq (groups : List (Sigma fun _ : String => List String)) :
    checkGroups names groups = report (groups.flatMap (groupWrong names)) := by
  induction groups with
  | nil => rfl
  | cons g groups ih =>
      rw [checkGroups, checkMembers_eq, List.flatMap_cons, report_append, ih]
      cases report (groupWrong names g) <;> rfl

theorem checkViewers_eq (logins : List String) (pre viewers : List ViewerCfg) :
    checkViewers logins (pre.map ViewerCfg.name).reverse viewers =
      report (eachAfter (viewerWrong logins) pre viewers) := by
  induction viewers generalizing pre with
  | nil => rfl
  | cons v viewers ih =>
      have hnext := ih (pre ++ [v])
      rw [checkViewers, eachAfter]
      simp only [List.mem_reverse]
      split
      · rename_i hname
        rw [viewerWrong, if_pos hname]
        rfl
      · rename_i hname
        split
        · rename_i hlogin
          rw [viewerWrong, if_neg hname, if_pos hlogin]
          rfl
        · rename_i hlogin
          simp only [viewerWrong, if_neg hname, if_neg hlogin, List.nil_append]
          simpa using hnext

theorem checkItems_eq (v : ViewerCfg) {items : List String} :
    checkItems names group v.name items =
      report ((items.filter fun it => ¬ (it ∈ names ∨ (group.lookup it).isSome)).map
        (.item v.name)) := by
  induction items with
  | nil => rfl
  | cons it items ih =>
      rw [checkItems]
      split
      · rename_i hknown
        rw [ih, List.filter_cons_of_neg (by simp only [decide_eq_true_eq, not_not]; exact hknown)]
      · rename_i hknown
        rw [List.filter_cons_of_pos (by simpa using hknown)]
        rfl

theorem checkScopes_eq (viewers : List ViewerCfg) :
    checkScopes names group viewers = report (viewers.flatMap (scopeWrong names group)) := by
  induction viewers with
  | nil => rfl
  | cons v viewers ih =>
      rw [checkScopes, List.flatMap_cons, report_append, ih, scopeWrong]
      cases v.scope with
      | all => rfl
      | list items =>
          simp only [checkItems_eq]
          split <;> (rename_i h; rw [h]; rfl)

theorem parseRecipients_eq (strs : List String) :
    (match parseRecipients age strs with
      | .ok _ => (.ok () : Except ConfigError Unit)
      | .error e => .error (.invalid ("[encryption]: " ++ e.display))) =
      report (strs.flatMap (recipientWrong age)) := by
  induction strs with
  | nil => rfl
  | cons s strs ih =>
      rw [List.flatMap_cons, report_append, ← ih, recipientWrong, parseRecipients, List.mapM_cons]
      cases age.parseRecipient (trim s) with
      | error e => rfl
      | ok r =>
          show (match (parseRecipients age strs >>= fun rs => pure (r :: rs)) with
            | .ok _ => _
            | .error e => _) = _
          cases parseRecipients age strs <;> rfl

theorem checkEncryption_eq (enc : Option EncryptionCfg) :
    checkEncryption age enc = report (encryptionWrong age enc) := by
  cases enc with
  | none => rfl
  | some enc =>
      rw [checkEncryption, encryptionWrong]
      simp only [List.isEmpty_iff]
      split
      · rfl
      · exact parseRecipients_eq enc.recipients

theorem groupWrong_reverse : groupWrong names.reverse = groupWrong names := by
  funext g
  simp only [groupWrong, List.mem_reverse]

theorem viewerWrong_reverse : viewerWrong logins.reverse = viewerWrong logins := by
  funext pre v
  simp only [viewerWrong, List.mem_reverse]

theorem scopeWrong_reverse : scopeWrong names.reverse group = scopeWrong names group := by
  funext v
  simp only [scopeWrong, List.mem_reverse]

/-- **`validate` reports the first of all that is wrong.** -/
theorem validate_eq (cfg : Config) : cfg.validate age = report (cfg.offences age) := by
  rw [Config.validate, Config.offences, report_append]
  split
  · rfl
  · have hcams := checkCameras_eq [] cfg.camera
    have hviewers := checkViewers_eq (cfg.camera.map CameraCfg.login).reverse [] cfg.viewer
    simp only [List.map_nil, List.reverse_nil, List.nil_append] at hcams hviewers
    rw [hcams, report_append]
    show _ = report _ >>= _
    cases report (eachAfter cameraWrong [] cfg.camera) with
    | error e => rfl
    | ok u =>
        show (checkGroups _ _ >>= fun _ => checkViewers _ _ _ >>= fun _ => checkScopes _ _ _ >>=
          fun _ => checkEncryption _ _) = report _
        rw [checkGroups_eq, hviewers, checkScopes_eq, checkEncryption_eq, groupWrong_reverse,
          viewerWrong_reverse, scopeWrong_reverse, report_append, report_append, report_append]

/-- Offences in the order of the checks, from the check `k` on. -/
def SortedFrom (k : Nat) (os : List Offence) : Prop :=
  os.Pairwise (fun o o' => o.check ≤ o'.check) ∧ ∀ o ∈ os, k ≤ o.check

theorem SortedFrom.append {k : Nat} {a b : List Offence} (hb : SortedFrom (k + 1) b)
    (ha : ∀ o ∈ a, o.check = k) : SortedFrom k (a ++ b) := by
  refine ⟨List.pairwise_append.mpr ⟨?_, hb.1, fun o ho o' ho' => ?_⟩, fun o ho => ?_⟩
  · exact List.Pairwise.imp_of_mem (fun ho ho' _ => by rw [ha _ ho, ha _ ho'])
      (List.pairwise_of_forall fun _ _ => trivial)
  · have hlater := hb.2 o' ho'
    rw [ha o ho]
    omega
  · rcases List.mem_append.mp ho with ho | ho
    · rw [ha o ho]
    · have hlater := hb.2 o ho
      omega

theorem offences_sorted (cfg : Config) : SortedFrom 0 (cfg.offences age) := by
  have hlast : SortedFrom 5 (encryptionWrong age cfg.encryption) := by
    rw [← List.append_nil (encryptionWrong age cfg.encryption)]
    refine SortedFrom.append ⟨.nil, by simp⟩ fun o ho => ?_
    obtain ⟨enc, -, ⟨-, rfl⟩ | ⟨s, -, e, -, rfl⟩⟩ := mem_encryptionWrong.mp ho <;> rfl
  refine ((((hlast.append ?_).append ?_).append ?_).append ?_).append ?_
  · intro o ho
    obtain ⟨v, -, h⟩ := List.mem_flatMap.mp ho
    obtain ⟨items, -, it, -, -, -, rfl⟩ := mem_scopeWrong.mp h
    rfl
  · intro o ho
    obtain ⟨pre, v, post, -, h⟩ := mem_eachAfter.mp ho
    obtain ⟨-, rfl⟩ | ⟨-, rfl⟩ := mem_viewerWrong.mp h <;> rfl
  · intro o ho
    obtain ⟨g, -, h⟩ := List.mem_flatMap.mp ho
    obtain ⟨m, -, -, rfl⟩ := mem_groupWrong.mp h
    rfl
  · intro o ho
    obtain ⟨pre, cam, post, -, h⟩ := mem_eachAfter.mp ho
    obtain ⟨-, rfl⟩ | ⟨-, rfl⟩ := mem_cameraWrong.mp h <;> rfl
  · intro o ho
    obtain ⟨-, rfl⟩ : _ ∧ o = .ports := by simpa using ho
    rfl

end Loops

/-! ## The verdict -/

/-- What `load` says about a file: what reading or parsing it failed with, an offence of the
configuration it has, or the configuration itself. -/
inductive LoadVerdict (toml : String → Except String Config) (age : Age)
    (file : Except String String) : Except ConfigError Config → Prop where
  | unread (e : String) : file = .error e → LoadVerdict toml age file (.error (.read e))
  | unparsed (s e : String) : file = .ok s → toml s = .error e →
      LoadVerdict toml age file (.error (.parse e))
  | offends (s : String) (cfg : Config) (o : Offence) : file = .ok s → toml s = .ok cfg →
      Offends age cfg o → (∀ o', Offends age cfg o' → o.check ≤ o'.check) →
      LoadVerdict toml age file (.error (.invalid o.text))
  | loaded (s : String) (cfg : Config) : file = .ok s → toml s = .ok cfg →
      (∀ o, ¬ Offends age cfg o) → LoadVerdict toml age file (.ok cfg)

/-- **A configuration is refused for what is wrong with it**, and loaded if nothing is. -/
theorem load_verdict (toml : String → Except String Config) (age : Age)
    (file : Except String String) : LoadVerdict toml age file (load toml age file) := by
  cases file with
  | error e => exact .unread e rfl
  | ok s =>
      have hload : load toml age (.ok s) = (parseStr toml s >>= fun cfg =>
          cfg.validate age >>= fun _ => .ok cfg) := rfl
      rw [hload, parseStr]
      cases hparse : toml s with
      | error e => exact .unparsed s e rfl hparse
      | ok cfg =>
          show LoadVerdict _ _ _ (cfg.validate age >>= fun _ => .ok cfg)
          rw [validate_eq]
          have hsorted : SortedFrom 0 (cfg.offences age) := offences_sorted cfg
          cases hos : cfg.offences age with
          | nil =>
              refine .loaded s cfg rfl hparse fun o ho => ?_
              rw [← mem_offences, hos] at ho
              cases ho
          | cons o os =>
              rw [hos] at hsorted
              refine .offends s cfg o rfl hparse (mem_offences.mp (by simp [hos])) fun o' ho => ?_
              rw [← mem_offences, hos] at ho
              rcases List.mem_cons.mp ho with rfl | ho
              · exact Nat.le_refl _
              · exact (List.pairwise_cons.mp hsorted.1).1 o' ho

end Reoftpd
