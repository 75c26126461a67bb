import Mathlib.Data.List.Sort
import Mathlib.Data.List.AList
import Mathlib.Data.String.Basic
import Reoftpd.TomlLines
import Reoftpd.Config

/-!
# The text of a configuration

What the derived `Deserialize` of `config.rs` makes of a TOML document, all fields
included, and so what `toml::from_str` makes of a text.  A struct is read from a table by
the names of its fields, whatever else the table has, or from an array by their positions.
-/
namespace Reoftpd.Toml

/-! ## Deserializing -/

variable {A : Type}

/-- The fields of a struct, by position and name. -/
def Node.fields : Node → Option (Nat → String → Option Node)
  | .table _ t => some fun _ k => Table.get k t
  | .array items => some fun i _ => items[i]?
  | .tables items => some fun i _ => items[i]?
  | _ => none

/-- A field that must be there. -/
def required (f : Node → Option A) (field : Option Node) : Option A := field.bind f

/-- A field that has a default. -/
def defaulted (f : Node → Option A) (default : A) : Option Node → Option A
  | none => some default
  | some n => f n

/-- A field that need not be there. -/
def omittable (f : Node → Option A) : Option Node → Option (Option A) :=
  defaulted (fun n => (f n).map some) none

/-- `String`. -/
def Node.string? : Node → Option String
  | .string s => some s
  | _ => none

/-- `bool`. -/
def Node.bool? : Node → Option Bool
  | .boolean b => some b
  | _ => none

/-- An unsigned integer up to a bound. -/
def Node.unsigned? (max : Nat) : Node → Option Nat
  | .integer i => if 0 ≤ i ∧ i ≤ max then some i.toNat else none
  | _ => none

/-- `u16`. -/
def Node.u16? : Node → Option Nat := unsigned? 0xffff

/-- `u32`. -/
def Node.u32? : Node → Option Nat := unsigned? 0xffffffff

/-- `u64`. -/
def Node.u64? : Node → Option Nat := unsigned? 0xffffffffffffffff

/-- An array that is a value. -/
def Node.isArray : Node → Bool
  | .array _ => true
  | _ => false

/-- `Vec`. -/
def Node.vec? (f : Node → Option A) : Node → Option (List A)
  | .array items => items.mapM f
  | .tables items => items.mapM f
  | _ => none

/-- An array of two. -/
def Node.pair? (f : Node → Option A) (n : Node) : Option (A × A) := do
  let items ← n.vec? some
  let a ← required f items[0]?
  let b ← required f items[1]?
  return (a, b)

/-- `BTreeMap`, in the order of its iteration. -/
def Node.map? (f : Node → Option A) : Node → Option (AList fun _ : String => A)
  | .table _ t => do
      let entries ← t.mapM fun e => (f e.2).map fun a => (⟨e.1, a⟩ : Sigma fun _ : String => A)
      return (entries.insertionSort fun a b => a.1 ≤ b.1).toAList
  | _ => none

theorem required_eq_some {f : Node → Option A} {o : Option Node} {a : A} :
    required f o = some a ↔ ∃ n, o = some n ∧ f n = some a := Option.bind_eq_some_iff

theorem omittable_eq_some {f : Node → Option A} {o : Option Node} {a : A} :
    omittable f o = some (some a) ↔ ∃ n, o = some n ∧ f n = some a := by
  cases o <;> simp [omittable, defaulted]

@[simp]
theorem Node.string?_eq_some {n : Node} {s : String} : n.string? = some s ↔ n = .string s := by
  cases n <;> simp [Node.string?]

/-- The items of a `Vec` are read one by one. -/
theorem mapM_getElem? {f : Node → Option A} {items : List Node} {l : List A}
    (h : items.mapM f = some l) : l.length = items.length ∧
      ∀ (i : Nat) n, items[i]? = some n → ∃ a, f n = some a ∧ l[i]? = some a := by
  induction items generalizing l with
  | nil =>
      cases h
      simp
  | cons n items ih =>
      simp only [List.mapM_cons, bind, Option.bind_eq_some_iff] at h
      obtain ⟨a, ha, as, has, h⟩ := h
      cases h
      obtain ⟨hlen, hget⟩ := ih has
      refine ⟨by simp [hlen], fun i n' hi => ?_⟩
      cases i with
      | zero => exact ⟨a, by simpa using Option.some.inj hi ▸ ha, rfl⟩
      | succ i => exact hget i n' hi

/-- A list that is no array value is the tables of its headers, if there are any. -/
theorem defaulted_vec? {f : Node → Option A} {o : Option Node} {l : List A}
    (h : defaulted (Node.vec? f) [] o = some l) (ho : ∀ items, o ≠ some (.array items)) :
    ∃ ts, (o = none ∧ ts = [] ∨ o = some (.tables ts)) := by
  cases o with
  | none => exact ⟨[], .inl ⟨rfl, rfl⟩⟩
  | some n =>
      cases n with
      | tables ts => exact ⟨ts, .inr rfl⟩
      | array items => exact absurd rfl (ho items)
      | _ => cases h

theorem mapM_of_defaulted {f : Node → Option A} {o : Option Node} {l : List A} {ts : List Node}
    (h : defaulted (Node.vec? f) [] o = some l)
    (ho : o = none ∧ ts = [] ∨ o = some (.tables ts)) : ts.mapM f = some l := by
  rcases ho with ⟨rfl, rfl⟩ | rfl
  · exact h
  · exact h

/-- What is read of a table behind the others, where the list has one element more. -/
theorem read_last {f : Node → Option A} {o : Option Node} {l : List A} {a : A}
    {ts ts' : List Node} {n : Node} (h : defaulted (Node.vec? f) [] o = some l)
    (ho : o = none ∧ ts = [] ∨ o = some (.tables ts))
    (hnew : defaulted (Node.vec? f) [] (some (.tables ts')) = some (l ++ [a]))
    (hn : ts'[ts.length]? = some n) : f n = some a := by
  obtain ⟨a', ha, hi⟩ := (mapM_getElem? hnew).2 _ _ hn
  rw [← (mapM_getElem? (mapM_of_defaulted h ho)).1] at hi
  rw [ha, ← hi]
  simp

theorem mapM_string? {items : List Node} {l : List String} :
    items.mapM Node.string? = some l ↔ items = l.map .string := by
  induction items generalizing l with
  | nil => cases l <;> simp
  | cons n items ih =>
      cases l with
      | nil => simp [List.mapM_cons, bind, Option.bind_eq_some_iff]
      | cons s l => simp [List.mapM_cons, bind, Option.bind_eq_some_iff, ih]

end Reoftpd.Toml

namespace Reoftpd
open Toml

/-! ## The structs of the configuration -/

/-- The fields of `ServerCfg` that `Config.server` leaves out. -/
structure ServerText where
  listen : String
  port : Nat
  passiveHost : Option String
  greeting : Option String
  tlsCert : Option OsStr
  tlsKey : Option OsStr

/-- `LockoutCfg`. -/
structure LockoutCfg where
  maxAttempts : Nat
  windowSecs : Nat
  banSecs : Nat

/-- The fields of `LimitsCfg` that `Config.limits` leaves out. -/
structure LimitsText where
  maxConnectionsPerIp : Nat
  newConnsPerMinPerIp : Nat
  idleTimeoutSecs : Nat
  minTransferRateBytesPerSec : Nat
  failedLoginLockout : LockoutCfg

/-- `Config`, all fields of its structs included. -/
structure FileConfig where
  config : Config
  server : ServerText
  limits : LimitsText

/-- `PathBuf`. -/
def pathBuf (n : Node) : Option OsStr := n.string?.map UnixPath.ofString

/-- `ServerCfg`. -/
def serverCfg (n : Node) : Option (ServerCfg × ServerText) := do
  let field ← n.fields
  let listen ← required Node.string? (field 0 "listen")
  let port ← required Node.u16? (field 1 "port")
  let passivePorts ← required (Node.pair? Node.u16?) (field 2 "passive_ports")
  let passiveHost ← omittable Node.string? (field 3 "passive_host")
  let greeting ← omittable Node.string? (field 4 "greeting")
  let tlsCert ← omittable pathBuf (field 5 "tls_cert")
  let tlsKey ← omittable pathBuf (field 6 "tls_key")
  return (⟨passivePorts⟩, ⟨listen, port, passiveHost, greeting, tlsCert, tlsKey⟩)

/-- `ArchiveCfg`. -/
def archiveCfg (n : Node) : Option ArchiveCfg := do
  let field ← n.fields
  let root ← required pathBuf (field 0 "root")
  let retentionDays ← required Node.u64? (field 1 "retention_days")
  return ⟨root, retentionDays⟩

/-- `LockoutCfg`. -/
def lockoutCfg (n : Node) : Option LockoutCfg := do
  let field ← n.fields
  let maxAttempts ← required Node.u32? (field 0 "max_attempts")
  let windowSecs ← required Node.u64? (field 1 "window_secs")
  let banSecs ← required Node.u64? (field 2 "ban_secs")
  return ⟨maxAttempts, windowSecs, banSecs⟩

/-- `LimitsCfg`. -/
def limitsCfg (n : Node) : Option (LimitsCfg × LimitsText) := do
  let field ← n.fields
  let maxConnections ← required Node.u32? (field 0 "max_connections")
  let perIp ← required Node.u32? (field 1 "max_connections_per_ip")
  let newPerMin ← required Node.u32? (field 2 "new_conns_per_min_per_ip")
  let idle ← required Node.u64? (field 3 "idle_timeout_secs")
  let rate ← required Node.u64? (field 4 "min_transfer_rate_bytes_per_sec")
  let lockout ← required lockoutCfg (field 5 "failed_login_lockout")
  let perAccount ← omittable Node.u32? (field 6 "max_connections_per_account")
  return (⟨maxConnections, perAccount⟩, ⟨perIp, newPerMin, idle, rate, lockout⟩)

/-- `CameraCfg`. -/
def cameraCfg (n : Node) : Option CameraCfg := do
  let field ← n.fields
  let name ← required Node.string? (field 0 "name")
  let username ← omittable Node.string? (field 1 "username")
  let uploadPasswordHash ← required Node.string? (field 2 "upload_password_hash")
  let requireTls ← omittable Node.bool? (field 3 "require_tls")
  return ⟨name, username, uploadPasswordHash, requireTls⟩

/-- `Scope::deserialize`: a string has to be `all`. -/
def scope? : Node → Option Scope
  | .string s => if s = "all" then some .all else none
  | n => (n.vec? Node.string?).map .list

/-- `ViewerCfg`. -/
def viewerCfg (n : Node) : Option ViewerCfg := do
  let field ← n.fields
  let name ← required Node.string? (field 0 "name")
  let passwordHash ← required Node.string? (field 1 "password_hash")
  let scope ← required scope? (field 2 "scope")
  return ⟨name, passwordHash, scope⟩

/-- `EncryptionCfg`. -/
def encryptionCfg (n : Node) : Option EncryptionCfg := do
  let field ← n.fields
  let recipients ← required (Node.vec? Node.string?) (field 0 "recipients")
  return ⟨recipients⟩

/-- `Config`, from the table of a document. -/
def fileConfig (root : Table) : Option FileConfig := do
  let (server, serverText) ← required serverCfg (Table.get "server" root)
  let archive ← required archiveCfg (Table.get "archive" root)
  let (limits, limitsText) ← required limitsCfg (Table.get "limits" root)
  let camera ← defaulted (Node.vec? cameraCfg) [] (Table.get "camera" root)
  let group ← defaulted (Node.map? (Node.vec? Node.string?)) ∅ (Table.get "group" root)
  let viewer ← defaulted (Node.vec? viewerCfg) [] (Table.get "viewer" root)
  let encryption ← omittable encryptionCfg (Table.get "encryption" root)
  return ⟨⟨server, archive, limits, camera, group, viewer, encryption⟩, serverText, limitsText⟩

/-- U+FEFF, which may stand in front of a document without being part of it. -/
def byteOrderMark : Char := Char.ofNat 0xFEFF

/-- The document of a text. -/
def documentChars (s : String) : List Char :=
  if s.toList.head? = some byteOrderMark then s.toList.tail else s.toList

/-- What goes behind a text goes behind its document. -/
theorem documentChars_append {text entry : String}
    (h : entry.toList.head? ≠ some byteOrderMark) :
    documentChars (text ++ entry) = documentChars text ++ entry.toList := by
  unfold documentChars
  rw [String.toList_append]
  cases htext : text.toList with
  | nil => simp [h]
  | cons c l =>
      by_cases hc : c = byteOrderMark <;> simp [hc]

/-- `toml::from_str`. -/
def fromStr (s : String) : Option FileConfig :=
  (read (documentChars s)).bind fun d => fileConfig d.root

/-- What `parse_str` is given of it; `refusal` is the text of an error. -/
def tomlConfig (refusal : String → String) (s : String) : Except String Config :=
  match fromStr s with
  | some c => .ok c.config
  | none => .error (refusal s)

/-! ## Accounts in tables -/

variable {kind : TableKind} {t : Table} {cam : CameraCfg} {v : ViewerCfg}

theorem cameraCfg_table : cameraCfg (.table kind t) = some cam ↔
    Table.get "name" t = some (.string cam.name) ∧
    omittable Node.string? (Table.get "username" t) = some cam.username ∧
    Table.get "upload_password_hash" t = some (.string cam.uploadPasswordHash) ∧
    omittable Node.bool? (Table.get "require_tls" t) = some cam.requireTls := by
  obtain ⟨name, username, hash, tls⟩ := cam
  simp only [cameraCfg, Node.fields, bind, Option.bind_some, Option.bind_eq_some_iff,
    required_eq_some, Node.string?_eq_some]
  constructor
  · rintro ⟨_, ⟨_, hn, rfl⟩, _, hu, _, ⟨_, hh, rfl⟩, _, ht, he⟩
    cases he
    exact ⟨hn, hu, hh, ht⟩
  · rintro ⟨hn, hu, hh, ht⟩
    exact ⟨name, ⟨_, hn, rfl⟩, username, hu, hash, ⟨_, hh, rfl⟩, tls, ht, rfl⟩

theorem viewerCfg_table : viewerCfg (.table kind t) = some v ↔
    Table.get "name" t = some (.string v.name) ∧
    Table.get "password_hash" t = some (.string v.passwordHash) ∧
    ∃ n, Table.get "scope" t = some n ∧ scope? n = some v.scope := by
  obtain ⟨name, hash, scope⟩ := v
  simp only [viewerCfg, Node.fields, bind, Option.bind_some, Option.bind_eq_some_iff,
    required_eq_some, Node.string?_eq_some]
  constructor
  · rintro ⟨_, ⟨_, hn, rfl⟩, _, ⟨_, hh, rfl⟩, _, hs, he⟩
    cases he
    exact ⟨hn, hh, hs⟩
  · rintro ⟨hn, hh, hs⟩
    exact ⟨name, ⟨_, hn, rfl⟩, hash, ⟨_, hh, rfl⟩, scope, hs, rfl⟩

/-- A list of names is written as an array of them. -/
theorem scope?_list {n : Node} {items : List String} (h : scope? n = some (.list items)) :
    n = .array (items.map .string) ∨ ∃ ts, n = .tables ts := by
  cases n with
  | string s =>
      simp only [scope?] at h
      split at h
      · cases h
      · cases h
  | array l =>
      obtain ⟨items', hl, he⟩ := Option.map_eq_some_iff.mp h
      cases he
      exact .inl (congrArg _ (mapM_string?.mp hl))
  | tables ts => exact .inr ⟨ts, rfl⟩
  | _ => cases h

/-! ## Sections -/

variable {root root' : Table} {c : FileConfig}

/-- A configuration is read section by section. -/
theorem fileConfig_eq_some : fileConfig root = some c ↔
    required serverCfg (Table.get "server" root) = some (c.config.server, c.server) ∧
    required archiveCfg (Table.get "archive" root) = some c.config.archive ∧
    required limitsCfg (Table.get "limits" root) = some (c.config.limits, c.limits) ∧
    defaulted (Node.vec? cameraCfg) [] (Table.get "camera" root) = some c.config.camera ∧
    defaulted (Node.map? (Node.vec? Node.string?)) ∅ (Table.get "group" root) =
      some c.config.group ∧
    defaulted (Node.vec? viewerCfg) [] (Table.get "viewer" root) = some c.config.viewer ∧
    omittable encryptionCfg (Table.get "encryption" root) = some c.config.encryption := by
  constructor
  · intro h
    simp only [fileConfig, bind, Option.bind_eq_some_iff] at h
    obtain ⟨⟨server, serverText⟩, h₁, archive, h₂, ⟨limits, limitsText⟩, h₃, camera, h₄, group, h₅,
      viewer, h₆, encryption, h₇, h⟩ := h
    cases h
    exact ⟨h₁, h₂, h₃, h₄, h₅, h₆, h₇⟩
  · rintro ⟨h₁, h₂, h₃, h₄, h₅, h₆, h₇⟩
    simp only [fileConfig, h₁, h₂, h₃, h₄, h₅, h₆, h₇]
    rfl

/-- The configuration with other cameras. -/
def FileConfig.withCameras (c : FileConfig) (camera : List CameraCfg) : FileConfig :=
  { c with config := { c.config with camera := camera } }

/-- The configuration with other viewers. -/
def FileConfig.withViewers (c : FileConfig) (viewer : List ViewerCfg) : FileConfig :=
  { c with config := { c.config with viewer := viewer } }

theorem fileConfig_withCameras (h : fileConfig root = some c)
    (hroot : ∀ k, k ≠ "camera" → Table.get k root' = Table.get k root) (cams : List CameraCfg) :
    fileConfig root' = some (c.withCameras cams) ↔
      defaulted (Node.vec? cameraCfg) [] (Table.get "camera" root') = some cams := by
  obtain ⟨h₁, h₂, h₃, -, h₅, h₆, h₇⟩ := fileConfig_eq_some.mp h
  rw [fileConfig_eq_some, hroot "server" (by decide), hroot "archive" (by decide),
    hroot "limits" (by decide), hroot "group" (by decide), hroot "viewer" (by decide),
    hroot "encryption" (by decide)]
  exact ⟨fun h => h.2.2.2.1, fun h => ⟨h₁, h₂, h₃, h, h₅, h₆, h₇⟩⟩

theorem fileConfig_withViewers (h : fileConfig root = some c)
    (hroot : ∀ k, k ≠ "viewer" → Table.get k root' = Table.get k root) (viewers : List ViewerCfg) :
    fileConfig root' = some (c.withViewers viewers) ↔
      defaulted (Node.vec? viewerCfg) [] (Table.get "viewer" root') = some viewers := by
  obtain ⟨h₁, h₂, h₃, h₄, h₅, -, h₇⟩ := fileConfig_eq_some.mp h
  rw [fileConfig_eq_some, hroot "server" (by decide), hroot "archive" (by decide),
    hroot "limits" (by decide), hroot "group" (by decide), hroot "camera" (by decide),
    hroot "encryption" (by decide)]
  exact ⟨fun h => h.2.2.2.2.2.1, fun h => ⟨h₁, h₂, h₃, h₄, h₅, h, h₇⟩⟩

end Reoftpd
