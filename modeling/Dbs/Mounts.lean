/-
  File:      Dbs/Mounts.lean
  Subject:   A CONTAINER'S PATHS ON ITS HOST (applications/paths.py).

  * `onHost` -- the path of the deepest mount that holds a path, with what stands behind it;
  * `Application.hostPath` -- where a path of an application lies on the host, where it is known.
-/
import Dbs.Lib.PosixPath
import Mathlib.Algebra.GroupWithZero.Nat

namespace Dbs.Mounts

open Posix

structure Mount where
  destination : PathText
  source : PathText
deriving DecidableEq

/-- `text.rstrip("/") or "/"` -/
def trimmed (text : PathText) : PathText :=
  let kept := (text.reverse.dropWhile (· = "")).reverse
  if kept = [] then ["", ""] else kept

/-- `len(text)` -/
def textLength (text : PathText) : Nat := (text.map String.length).sum + (text.length - 1)

/-- `_inside` -/
def inside (path folder : PathText) : Bool :=
  if folder = ["", ""] then isAbs path else folder.isPrefixOf path

/-- The turns of the loop: the deepest mount so far. -/
def best (path : PathText) (mounts : List Mount) : Option (PathText × PathText) :=
  mounts.foldl (fun best mount =>
    let destination := trimmed mount.destination
    if mount.source = [""] || !inside path destination then best
    else match best with
      | none => some (destination, mount.source)
      | some (deepest, _) =>
        if textLength deepest < textLength destination then some (destination, mount.source)
          else best) none

def onHost (cwd : Location) (mounts : List Mount) (path : PathText) : Option PathText :=
  (best path mounts).map fun (destination, source) =>
    let remainder := relpath cwd path destination
    if remainder = ["."] then source else join source remainder

/-- What an application's paths depend on. -/
structure Application where
  id : Nat
  server : Nat
  inContainer : Bool
  mounts : List Mount
  envPath : PathText
  envInContainer : Bool
deriving DecidableEq

def Application.hostPath (cwd : Location) (application : Application) (path : PathText) :
    Option PathText :=
  if path = [""] then none
  else if !application.inContainer then some path
  else onHost cwd application.mounts path

example : (Application.mk 1 1 true
    [⟨["", "app"], ["", "srv", "app"]⟩, ⟨["", "app", "media"], ["", "data"]⟩]
    ["", "app", ".env"] true).hostPath [] ["", "app", "media", "a"] = some ["", "data", "a"] := by
  decide +kernel

end Dbs.Mounts
