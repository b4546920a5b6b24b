import Tactile.Lib.Program
import Tactile.Publish.Records

/-!
The operations that the request handlers and the sweeper of a publish node call,
and how a node answers them.
-/

namespace Tactile.Publish.NodeOps

open Tactile.Lib.Program Tactile.Lib.FiniteMap Tactile.Lib.ByteString
open Tactile.Publish.Bundle Tactile.Publish.Records

/-- The atomic parts of a handler: the site locks, the clock, randomness and DNS,
the methods of the backend, and the marks of the sweeper. -/
inductive NodeOp
  | lock (slug : String)
  | unlock (slug : String)
  | now
  | random
  | lookupTXT (name : String)
  | getSite (slug : String)
  | putSite (m : SiteMeta)
  | deleteSite (slug : String)
  | listSites
  | resolveDomain (domain : String)
  | setDomain (domain slug : String)
  | deleteDomain (domain : String)
  | putDeploy (d : Deploy)
  | getDeploy (slug id : String)
  | deleteDeploy (slug id : String)
  | putObject (hash : Digest) (data : Bytes)
  | deleteObject (hash : Digest)
  | listObjects
  | totalBytes
  | marked
  | setMarked (marks : List Digest)

abbrev NodeAns : NodeOp → Type
  | .lock _ | .unlock _ => Unit
  | .now => ℤ
  | .random => ByteArr 4
  | .lookupTXT _ => Except String (List String)
  | .getSite _ => Option SiteMeta
  | .putSite _ => Except Err Unit
  | .deleteSite _ => Unit
  | .listSites => Except Err (List SiteMeta)
  | .resolveDomain _ => Option String
  | .setDomain .. => Except Err Unit
  | .deleteDomain _ => Unit
  | .putDeploy _ => Except Err Unit
  | .getDeploy .. => Option Deploy
  | .deleteDeploy .. => Unit
  | .putObject .. => Except Err Unit
  | .deleteObject _ => Unit
  | .listObjects => Dict Digest ℤ
  | .totalBytes => ℤ
  | .marked => List Digest
  | .setMarked _ => Unit

/-- A running node: its store, the site locks that are held and the marks of the
last sweep. -/
structure Node where
  store : Store
  locks : List String
  marked : List Digest

/-- A node that has just opened its store. -/
def Node.start (b : Backend) (disk : Disk) : Node := ⟨.load b disk, [], []⟩

/-- The answers of a node over a backend: any write may fail and then leaves no
record, and so may the deletion of a manifest and then leaves it; a lock is taken
when it is free; a listing has any order. -/
inductive Serves (b : Backend) (fileOf : String → String) : Answers NodeOp NodeAns Node
  | lock (n : Node) (slug : String) :
      slug ∉ n.locks → Serves b fileOf n (.lock slug) () { n with locks := slug :: n.locks }
  | unlock (n : Node) (slug : String) :
      Serves b fileOf n (.unlock slug) () { n with locks := n.locks.filter (· ≠ slug) }
  | now (n : Node) (t : ℤ) : Serves b fileOf n .now t n
  | random (n : Node) (r4 : ByteArr 4) : Serves b fileOf n .random r4 n
  | lookupTXT (n : Node) (name : String) (txts : Except String (List String)) :
      Serves b fileOf n (.lookupTXT name) txts n
  | getSite (n : Node) (slug : String) :
      Serves b fileOf n (.getSite slug) (n.store.getSite slug) n
  | putSite (n : Node) (m : SiteMeta) (written : Bool) :
      Serves b fileOf n (.putSite m) (n.store.putSite b m written).1
        { n with store := (n.store.putSite b m written).2 }
  | deleteSite (n : Node) (slug : String) :
      Serves b fileOf n (.deleteSite slug) ()
        { n with store := n.store.deleteSite b fileOf slug }
  | listSites (n : Node) (sites : List SiteMeta) :
      sites.Perm (n.store.listSites b) → Serves b fileOf n .listSites (.ok sites) n
  | resolveDomain (n : Node) (domain : String) :
      Serves b fileOf n (.resolveDomain domain) (n.store.resolveDomain domain) n
  | setDomain (n : Node) (domain slug : String) (written : Bool) :
      Serves b fileOf n (.setDomain domain slug) (n.store.setDomain fileOf domain slug written).1
        { n with store := (n.store.setDomain fileOf domain slug written).2 }
  | deleteDomain (n : Node) (domain : String) :
      Serves b fileOf n (.deleteDomain domain) ()
        { n with store := n.store.deleteDomain fileOf domain }
  | putDeploy (n : Node) (d : Deploy) (written : Bool) :
      Serves b fileOf n (.putDeploy d) (n.store.putDeploy d written).1
        { n with store := (n.store.putDeploy d written).2 }
  | getDeploy (n : Node) (slug id : String) :
      Serves b fileOf n (.getDeploy slug id) (n.store.getDeploy slug id) n
  | deleteDeploy (n : Node) (slug id : String) (deleted : Bool) :
      Serves b fileOf n (.deleteDeploy slug id) ()
        { n with store := if deleted then n.store.deleteDeploy slug id else n.store }
  | putObject (n : Node) (hash : Digest) (data : Bytes) (written : Bool) :
      Serves b fileOf n (.putObject hash data) (n.store.putObject b hash data written).1
        { n with store := (n.store.putObject b hash data written).2 }
  | deleteObject (n : Node) (hash : Digest) :
      Serves b fileOf n (.deleteObject hash) ()
        { n with store := n.store.deleteObject hash }
  | listObjects (n : Node) : Serves b fileOf n .listObjects n.store.mem.objIndex n
  | totalBytes (n : Node) : Serves b fileOf n .totalBytes n.store.mem.totalBytes n
  | marked (n : Node) : Serves b fileOf n .marked n.marked n
  | setMarked (n : Node) (marks : List Digest) :
      Serves b fileOf n (.setMarked marks) () { n with marked := marks }

abbrev NodeM : Type → Type := Prog NodeOp NodeAns

/-- Calls an operation of the node. -/
def node (o : NodeOp) : NodeM (NodeAns o) := Prog.op o

/-- Runs a program with the lock of a site held. -/
def withSiteLock {α : Type} (slug : String) (body : NodeM α) : NodeM α := do
  node (.lock slug)
  let result ← body
  node (.unlock slug)
  pure result

end Tactile.Publish.NodeOps
