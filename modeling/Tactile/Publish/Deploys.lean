import Tactile.Publish.Handlers

/-!
The upload of a deploy and the sweep of orphan objects.
-/

namespace Tactile.Publish.Deploys

open Tactile.Lib.Program Tactile.Lib.FiniteMap Tactile.Lib.ByteString
open Tactile.Publish.Bundle Tactile.Publish.Records Tactile.Publish.NodeOps
open Tactile.Publish.Handlers

/-- The text of a store error. -/
def errText : Err → String
  | .emptySlug => "store: empty slug"
  | .domainUse => "store: domain already mapped"
  | .read => "read failed"
  | .write => "write failed"

/-- The sink of an upload: it stores each file's content under its hash. -/
def putFile (f : File) (data : Bytes) : NodeM (Except String Unit) := do
  let put : Except Err Unit ← node (.putObject f.hash data)
  match put with
  | .error e => pure (.error (errText e))
  | .ok () => pure (.ok ())

/-- A number in hexadecimal, as the verb x prints it. -/
def hexInt (n : ℤ) : String :=
  (if n < 0 then "-" else "") ++ String.ofList (Nat.toDigits 16 n.natAbs)

def fileEntry (f : File) : FileEntry where
  path := f.path
  hash := hexEncode f.hash.val
  size := f.size
  mime := f.mime

/-- The manifest of an upload. -/
def newDeploy (slug : String) (idTime created : ℤ) (r4 : ByteArr 4) (files : List File)
    (opts : Options) : Deploy where
  id := hexInt idTime ++ "-" ++ hexEncode r4.val
  slug := slug
  created := created
  bytes := (files.map File.size).sum
  files := files.map fileEntry
  options := opts

/-- Deletes the manifests of the oldest deploys while more than `keep` are
retained; `none` is the panic of taking the first of no deploys. -/
def prune (slug : String) (keep : ℤ) : List String → NodeM (Option (List String))
  | [] => if 0 > keep then pure none else pure (some [])
  | old :: rest =>
    if ((old :: rest).length : ℤ) > keep then do
      node (.deleteDeploy slug old)
      prune slug keep rest
    else pure (some (old :: rest))

section Deploy

variable (srv : Server)

def storageFull : Response := .error 507 "storage_full" "node storage full"

/-- The bytes of the files that are not in the listing of the stored objects. -/
def newBytes (existing : Dict Digest ℤ) (files : List File) : ℤ :=
  ((files.filter fun f => (existing.lookup f.hash).isNone).map File.size).sum

/-- What an upload does with the lock of its site held, from its second look at
the site on. -/
def commitDeploy (slug : String) (pub : PubKey) (files : List File) (dep : Deploy) :
    NodeM Response := do
  let found : Option SiteMeta ← node (.getSite slug)
  match found with
  | none => pure (notFound "site not found")
  | some m =>
    if m.owner ≠ pub then pure notYourSite
    else do
      let usage ← identityUsage pub
      match usage with
      | .error _ => pure storeFailed
      | .ok usage => do
        let existing : Dict Digest ℤ ← node .listObjects
        if usage.bytes + newBytes existing files > srv.cfg.siteQuota then
          pure (.error 403 "quota_exceeded" "identity quota exceeded")
        else do
          let total : ℤ ← node .totalBytes
          if total + newBytes existing files > srv.cfg.maxStorage then pure storageFull
          else do
            let put : Except Err Unit ← node (.putDeploy dep)
            match put with
            | .error _ => pure storeFailed
            | .ok () => do
              let updated : ℤ ← node .now
              let kept ← prune slug srv.cfg.keepDeploys (m.deploys ++ [dep.id])
              match kept with
              | none => pure .aborted
              | some deploys => do
                let put : Except Err Unit ← node (.putSite
                  { m with deploys := deploys, current := dep.id, updated := updated })
                match put with
                | .error _ => pure storeFailed
                | .ok () =>
                  pure (.deployed dep.id dep.files.length dep.bytes slug (srv.siteURL slug))

/-- `POST /v1/sites/slug/deploys`: uploads a bundle. The signature is over the
digest of the bundle, which `stream` is read from. -/
def handleDeploy (req : Request) (stream : TarStream) : NodeM Response :=
  match req.gate with
  | .error r => pure r
  | .ok () =>
    match req.authed req.slug with
    | .error r => pure r
    | .ok pub => do
      let found : Option SiteMeta ← node (.getSite req.slug)
      match found with
      | none => pure (notFound "site not found")
      | some m =>
        if m.owner ≠ pub then pure notYourSite
        else do
          let total : ℤ ← node .totalBytes
          if total ≥ srv.cfg.maxStorage then pure storageFull
          else do
            let extracted ← extract srv.codec
              ⟨srv.cfg.maxFiles, srv.cfg.maxFileBytes, srv.cfg.maxSiteBytes⟩ putFile stream
            match extracted with
            | .error e =>
              pure (.error 400 (if e.overLimit then "too_large" else "bad_bundle")
                (e.text srv.quote))
            | .ok (files, opts) => do
              let r4 : ByteArr 4 ← node .random
              let idTime : ℤ ← node .now
              let created : ℤ ← node .now
              let dep := newDeploy req.slug idTime created r4 files opts
              withSiteLock req.slug (commitDeploy srv req.slug pub files dep)

/-- `POST /v1/sites/slug/rollback`: flips the current pointer back to a retained
deploy. -/
def handleRollback (req : Request) (body : Option String) : NodeM Response :=
  match req.gate with
  | .error r => pure r
  | .ok () =>
    match body with
    | none => pure (.error 400 "bad_request" "bad body")
    | some id =>
      if id = "" then pure (.error 400 "bad_request" "bad body")
      else
        match req.authed (req.slug ++ "|" ++ id) with
        | .error r => pure r
        | .ok pub => withSiteLock req.slug do
          let found : Option SiteMeta ← node (.getSite req.slug)
          match found with
          | none => pure (notFound "not found")
          | some m =>
            if m.owner ≠ pub then pure notYourSite
            else if id ∉ m.deploys then pure (notFound "deploy not found")
            else do
              let updated : ℤ ← node .now
              let put : Except Err Unit ← node (.putSite
                { m with current := id, updated := updated })
              match put with
              | .error _ => pure storeFailed
              | .ok () => pure (.rolledBack req.slug id)

end Deploy

section Sweep

attribute [local instance] lawfulBEq_byteArr32

def refsOfDeploy (slug : String) (refs : List Digest) (id : String) : NodeM (List Digest) := do
  let d : Option Deploy ← node (.getDeploy slug id)
  match d with
  | none => pure refs
  | some d => pure (d.hashes ++ refs)

def refsOfSite (refs : List Digest) (m : SiteMeta) : NodeM (List Digest) :=
  m.deploys.foldlM (refsOfDeploy m.slug) refs

/-- Deletes an object that the previous pass marked and nothing refers to. -/
def sweepObject (refs fresh : List Digest) (h : Digest) : NodeM (List Digest) :=
  if h ∈ refs then pure fresh
  else do
    node (.deleteObject h)
    pure (fresh.filter (· ≠ h))

/-- One pass over the objects: it deletes what the previous pass marked and marks
the other objects that no retained deploy lists. -/
def sweepOrphans : NodeM Unit := do
  let listed : Except Err (List SiteMeta) ← node .listSites
  match listed with
  | .error _ => pure ()
  | .ok sites => do
    let refs ← sites.foldlM refsOfSite []
    let objs : Dict Digest ℤ ← node .listObjects
    let marked : List Digest ← node .marked
    let freshMarks := objs.keys.filter (· ∉ refs)
    let left ← marked.foldlM (sweepObject refs) freshMarks
    node (.setMarked left)

end Sweep

end Tactile.Publish.Deploys
