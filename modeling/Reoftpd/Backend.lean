import Reoftpd.Auth
import Reoftpd.Paths
import Reoftpd.TreeStores

/-!
# The storage backend

`ReoBackend`: the capability gate, the view a user has of the file system, and the calls
of a session (`backend.rs`).  A `Request` is one call with its user and everything the
environment decides about it: what the input delivers, the seed of an encryption, and
which file operations fail by themselves.  `serve` is the backend that answers it.

The group and owner ids of a file's metadata are left out.  An error of the file system
that the source converts into a storage error is kept as it is (`StorageError.io`).
-/
namespace Reoftpd
open UnixPath FileTree

/-- `Op`. -/
inductive Op where
  | get
  | put
  | list
  | metadata
  | cwd
  | mkd
  | del
  | rmd
  | rename
  deriving DecidableEq

/-- `capability_allowed`. -/
def capabilityAllowed : Role → Op → Bool
  | .uploader _, .put | .uploader _, .mkd | .uploader _, .list | .uploader _, .metadata
  | .uploader _, .cwd => true
  | .uploader _, _ => false
  | .viewer _, .get | .viewer _, .list | .viewer _, .metadata | .viewer _, .cwd => true
  | .viewer _, _ => false

/-- `user_view`. -/
def userView (user : ReoUser) : ScopeMap :=
  match user.role with
  | .uploader home => .ofRoot home
  | .viewer scope => scope

theorem userView_uploader {user : ReoUser} {home : OsStr} (hrole : user.role = .uploader home) :
    userView user = .ofRoot home := by
  rw [userView, hrole]

/-- `ErrorKind` of the storage interface. -/
inductive ErrorKind where
  | permissionDenied
  | permanentFileNotAvailable
  | permanentDirectoryNotAvailable
  | fileNameNotAllowedError
  deriving DecidableEq

/-- `Error` of the storage interface: a kind, a kind with a text, or an error of the file
system converted. -/
inductive StorageError where
  | kind (k : ErrorKind)
  | message (k : ErrorKind) (text : String)
  | io (e : Errno)
  deriving DecidableEq

/-- `path_err_to_storage`. -/
def pathErrToStorage : PathError → StorageError
  | .traversal | .outsideScope => .kind .permissionDenied
  | .notFound => .kind .permanentFileNotAvailable

/-- `Display` of `StoreError`. -/
def StoreError.display : StoreError → String
  | .overlap => "overlap: start_pos < staging size"
  | .gap => "gap: start_pos > staging size"
  | .finalized => "file already finalized (no overwrite)"
  | .io e => "io error: " ++ errnoText e

/-- `store_error_to_storage`. -/
def storeErrorToStorage (e : StoreError) : StorageError :=
  match e with
  | .overlap | .gap => .message .fileNameNotAllowedError e.display
  | .finalized => .message .permanentFileNotAvailable e.display
  | .io err => .io err

/-- `Meta`. -/
inductive Meta where
  | real (m : FileStat)
  | synthDir
  deriving DecidableEq

/-- `is_single_scope`. -/
def isSingleScope (scope : ScopeMap) : Bool := scope.listRoot.isEmpty

/-- Whether a virtual path is `/` or empty, component by component. -/
def isVirtualRoot (virt : OsStr) : Bool :=
  components virt = components [sep] || components virt = components []

/-- An error of the file system, with an absence reported as `k`. -/
def absentAs (k : ErrorKind) : Errno → StorageError
  | .notFound => .kind k
  | e => .io e

/-- `ReoBackend`. -/
structure ReoBackend (age : Age) where
  recipients : Option (List age.Recipient)

/-- The backend that encrypts nothing. -/
def ReoBackend.plain {age : Age} : ReoBackend age := ⟨none⟩

/-! ## Calls that only look -/

section Look
variable (t : FileTree) (user : ReoUser)

/-- `ReoBackend::metadata`. -/
def ReoBackend.metadata (path : OsStr) : Except StorageError Meta :=
  if !capabilityAllowed user.role .metadata then .error (.kind .permissionDenied)
  else
    match (userView user).resolve t path with
    | .error e => .error (pathErrToStorage e)
    | .ok real =>
        match t.metadata real with
        | .ok m => .ok (.real m)
        | .error e => .error (absentAs .permanentFileNotAvailable e)

/-- The entries of a directory a listing shows: no staging files, no quarantine, nothing
that cannot be read. -/
def listEntries (real : OsStr) (names : List OsStr) : List (OsStr × Meta) :=
  names.filterMap fun name =>
    if stagingSuffix.isSuffixOf (ofString (toStringLossy name)) then none
    else if ofString (toStringLossy name) = quarantineDir then none
    else
      match t.symlinkMetadata (join real name) with
      | .ok m => some (name, .real m)
      | .error _ => none

/-- `ReoBackend::list`. -/
def ReoBackend.list (path : OsStr) : Except StorageError (List (OsStr × Meta)) :=
  if !capabilityAllowed user.role .list then .error (.kind .permissionDenied)
  else
    let listReal : Except StorageError (List (OsStr × Meta)) :=
      match (userView user).resolve t path with
      | .error e => .error (pathErrToStorage e)
      | .ok real =>
          match t.readDir real with
          | .ok names => .ok (listEntries t real names)
          | .error e => .error (absentAs .permanentDirectoryNotAvailable e)
    match user.role with
    | .uploader _ => listReal
    | .viewer scope =>
        if isVirtualRoot path && !scope.listRoot.isEmpty && !isSingleScope scope then
          .ok (scope.listRoot.map fun name => (ofString name, .synthDir))
        else listReal

/-- `seek` to an offset from the start: what is no `i64` is refused. -/
def seekStart (startPos : Nat) : Except Errno Unit :=
  if startPos < 2 ^ 63 then .ok () else .error (.other 22)

/-- `ReoBackend::get`: the reader it returns is the bytes from the offset on, or the
error that reading them is. -/
def ReoBackend.get (path : OsStr) (startPos : Nat) : Except StorageError (Except Errno Bytes) :=
  if !capabilityAllowed user.role .get then .error (.kind .permissionDenied)
  else
    match (userView user).resolve t path with
    | .error e => .error (pathErrToStorage e)
    | .ok real =>
        match t.find true real with
        | .error e => .error (absentAs .permanentFileNotAvailable e)
        | .ok (_, e) =>
            match seekStart startPos with
            | .error err => .error (.io err)
            | .ok () =>
                match e with
                | .file i => .ok (.ok ((t.disk.data i).drop startPos))
                | _ => .ok (.error .isADirectory)

/-- `ReoBackend::cwd`. -/
def ReoBackend.cwd (path : OsStr) : Except StorageError Unit :=
  if !capabilityAllowed user.role .cwd then .error (.kind .permissionDenied)
  else
    let enter : Except StorageError Unit :=
      match (userView user).resolve t path with
      | .error e => .error (pathErrToStorage e)
      | .ok real =>
          match t.metadata real with
          | .ok m => if m.isDir then .ok () else .error (.kind .permanentDirectoryNotAvailable)
          | .error e => .error (absentAs .permanentDirectoryNotAvailable e)
    match user.role with
    | .uploader _ => enter
    | .viewer scope => if isVirtualRoot path && !isSingleScope scope then .ok () else enter

end Look

/-! ## Calls that write -/

/-- Which file operations of a `put` fail by themselves. -/
structure PutFaults where
  mkdir : MkdirFault
  store : StoreSite → Option Errno
  encrypt : EncryptSite → Option Errno
  openProbe : Option Errno

/-- No operation fails by itself. -/
def PutFaults.never : PutFaults := ⟨fun _ _ => none, fun _ => none, fun _ => none, none⟩

/-- The copy of a probe, through a handle that keeps its own offset. -/
def copyProbe (i : Nat) : FileTree → Input → Nat → FileTree × Except Errno Nat
  | t, [], n => (t, .ok n)
  | t, .ok b :: rest, n => copyProbe i (t.writeAt i n b) rest (n + b.length)
  | t, .error e :: _, _ => (t, .error e)

/-- Where a probe of the given name goes. -/
def probeDest (home : OsStr) (filename : String) : OsStr :=
  join (join home quarantineDir) (ofString filename)

/-- The quarantine branch of `put`. -/
def putProbe (faults : PutFaults) (home : OsStr) (filename : String) (input : Input)
    (t : FileTree) : FileTree × Except StorageError Nat :=
  match t.createDirAll faults.mkdir (join home quarantineDir) with
  | (t', .error e) => (t', .error (.io e))
  | (t', .ok ()) =>
      match attempt faults.openProbe (t'.openTruncate (probeDest home filename)) with
      | .error e => (t', .error (.io e))
      | .ok (t'', i) =>
          ((copyProbe i t'' input 0).1, (copyProbe i t'' input 0).2.mapError .io)

/-- What a store returned, as the backend returns it. -/
def storeReply : StoreResult → Except StorageError Nat
  | .ok n => .ok n
  | .error e => .error (storeErrorToStorage e)

variable {age : Age}

/-- The store branch of `put`, on the resolved path. -/
def putStore (recipients : Option (List age.Recipient)) (faults : PutFaults) (seed : age.Seed)
    (resolved : OsStr) (startPos : Nat) (input : Input) (t : FileTree) :
    FileTree × Except StorageError Nat :=
  match recipients with
  | some recipients =>
      if startPos ≠ 0 then (t, .error (.kind .permissionDenied))
      else
        let out := storeEncrypted (treeTarget faults.mkdir (ageSuffix resolved)) faults.encrypt
          (encryptStream age recipients seed input) t
        (out.1, storeReply out.2)
  | none =>
      let out := storeStream (treeTarget faults.mkdir resolved) faults.store startPos input t
      (out.1, storeReply out.2)

/-- `ReoBackend::put`. -/
def ReoBackend.put (backend : ReoBackend age) (faults : PutFaults) (seed : age.Seed)
    (user : ReoUser) (path : OsStr) (startPos : Nat) (input : Input) (t : FileTree) :
    FileTree × Except StorageError Nat :=
  if !capabilityAllowed user.role .put then (t, .error (.kind .permissionDenied))
  else
    match user.role with
    | .viewer _ => (t, .error (.kind .permissionDenied))
    | .uploader home =>
        match fileName path with
        | none => (t, .error (.kind .fileNameNotAllowedError))
        | some name =>
            if isReolinkTestFile (toStringLossy name) then
              putProbe faults home (toStringLossy name) input t
            else
              match (userView user).resolve t path with
              | .error e => (t, .error (pathErrToStorage e))
              | .ok resolved => putStore backend.recipients faults seed resolved startPos input t

/-- `ReoBackend::mkd`. -/
def ReoBackend.mkd (mkdirFault : MkdirFault) (user : ReoUser) (path : OsStr) (t : FileTree) :
    FileTree × Except StorageError Unit :=
  if !capabilityAllowed user.role .mkd then (t, .error (.kind .permissionDenied))
  else
    match (userView user).resolve t path with
    | .error e => (t, .error (pathErrToStorage e))
    | .ok real =>
        match t.createDirAll mkdirFault real with
        | (t', .ok ()) => (t', .ok ())
        | (t', .error e) => (t', .error (.io e))

/-! ## Requests -/

/-- A call of the backend, with what the environment decides about it. -/
inductive Call (age : Age) where
  | metadata (path : OsStr)
  | list (path : OsStr)
  | get (path : OsStr) (startPos : Nat)
  | put (path : OsStr) (startPos : Nat) (input : Input) (seed : age.Seed) (faults : PutFaults)
  | del (path : OsStr)
  | mkd (path : OsStr) (mkdirFault : MkdirFault)
  | rename (source target : OsStr)
  | rmd (path : OsStr)
  | cwd (path : OsStr)

/-- A call and the user that makes it. -/
structure Request (age : Age) where
  user : ReoUser
  call : Call age

/-- What a call returns. -/
inductive Reply where
  | metadata (r : Except StorageError Meta)
  | list (r : Except StorageError (List (OsStr × Meta)))
  | get (r : Except StorageError (Except Errno Bytes))
  | put (r : Except StorageError Nat)
  | unit (r : Except StorageError Unit)
  deriving DecidableEq

/-- **The backend answers a request.**  Deleting, renaming and removing directories is
denied whoever asks. -/
def serve (backend : ReoBackend age) (t : FileTree) (req : Request age) :
    FileTree × Reply :=
  match req.call with
  | .metadata path => (t, .metadata (ReoBackend.metadata t req.user path))
  | .list path => (t, .list (ReoBackend.list t req.user path))
  | .get path startPos => (t, .get (ReoBackend.get t req.user path startPos))
  | .put path startPos input seed faults =>
      let r := backend.put faults seed req.user path startPos input t
      (r.1, .put r.2)
  | .mkd path mkdirFault =>
      let r := ReoBackend.mkd mkdirFault req.user path t
      (r.1, .unit r.2)
  | .cwd path => (t, .unit (ReoBackend.cwd t req.user path))
  | .del _ | .rename _ _ | .rmd _ => (t, .unit (.error (.kind .permissionDenied)))

/-- The tree after a request. -/
def afterRequest (backend : ReoBackend age) (t : FileTree) (req : Request age) : FileTree :=
  (serve backend t req).1

end Reoftpd
