import Mathlib.Data.List.AList
import Reoftpd.PathText

/-!
# Scopes

The part of `paths.rs` that looks at no file system: which real directories an account
may see, and the path a virtual path stands for before it is checked against them.
-/
namespace Reoftpd
open UnixPath

/-- `PathError`. -/
inductive PathError where
  | traversal
  | notFound
  | outsideScope
  deriving DecidableEq

/-- `ScopeMap`: named roots, or one root that is the whole view. -/
structure ScopeMap where
  roots : AList fun _ : String => OsStr
  single : Option OsStr

/-- `ScopeMap::single`. -/
def ScopeMap.ofRoot (root : OsStr) : ScopeMap := ⟨∅, some root⟩

/-- `ScopeMap::multi`. -/
def ScopeMap.multi (roots : AList fun _ : String => OsStr) : ScopeMap := ⟨roots, none⟩

/-- `ScopeMap::list_root`. -/
def ScopeMap.listRoot (m : ScopeMap) : List String := m.roots.keys

/-- The names in a list of components; a `..` among them is refused. -/
def normalizeComponents : List Component → Except PathError (List String)
  | [] => .ok []
  | .rootDir :: rest => normalizeComponents rest
  | .curDir :: rest => normalizeComponents rest
  | .normal s :: rest =>
      match normalizeComponents rest with
      | .ok names => .ok (toStringLossy s :: names)
      | .error e => .error e
  | .parentDir :: _ => .error .traversal

/-- `normalize`. -/
def normalize (virtualPath : OsStr) : Except PathError (List String) :=
  normalizeComponents (components virtualPath)

/-- `names.fold(base, |acc, p| acc.join(p))`. -/
def joinAll (base : OsStr) (names : List String) : OsStr :=
  names.foldl (fun acc p => join acc (ofString p)) base

/-- The base directory of a virtual path and the real path it stands for, in that base. -/
def ScopeMap.target (m : ScopeMap) (virtualPath : OsStr) : Except PathError (OsStr × OsStr) :=
  match normalize virtualPath with
  | .error e => .error e
  | .ok parts =>
      match m.single with
      | some base => .ok (base, joinAll base parts)
      | none =>
          match parts with
          | [] => .error .outsideScope
          | cam :: rest =>
              match m.roots.lookup cam with
              | none => .error .outsideScope
              | some base => .ok (base, joinAll base rest)

end Reoftpd
