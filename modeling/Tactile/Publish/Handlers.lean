import Tactile.Publish.NodeOps

/-!
The request handlers of a publish node that write, and its orphan sweeper.
-/

namespace Tactile.Publish.Handlers

open Tactile.Lib.Program Tactile.Lib.FiniteMap Tactile.Lib.ByteString
open Tactile.Publish.Bundle Tactile.Publish.Records Tactile.Publish.NodeOps

/-- The part of the configuration that the handlers read. -/
structure Config where
  baseDomain : String
  reservedSlugs : List String
  maxFiles : ℤ
  maxFileBytes : Int64
  maxSiteBytes : ℤ
  maxSites : ℤ
  maxDomains : ℤ
  siteQuota : ℤ
  maxStorage : ℤ
  keepDeploys : ℤ
  powBits : ℤ

/-- A server's configuration and the library code its handlers use: the digest,
the keyed digest of the node, the raw URL encoding, the lower-case mapping and
the trimming of strings, and the printing of quoted strings. -/
structure Server where
  cfg : Config
  codec : Codec
  hmac : Bytes → Bytes
  rawURLEncode : Bytes → String
  toLower : String → String
  trimSpace : String → String
  quote : String → String

/-- The data of a site in a response, `siteJSON`. -/
structure SiteJSON where
  slug : String
  title : String
  created : ℤ
  updated : ℤ
  current : String
  deploys : List String
  domains : List DomainEntry
  deriving DecidableEq

def siteJSON (m : SiteMeta) : SiteJSON where
  slug := m.slug
  title := m.title
  created := m.created
  updated := m.updated
  current := m.current
  deploys := m.deploys
  domains := m.domains

/-- What a handler writes; `aborted` is a panic, which the HTTP server catches. -/
inductive Response
  | error (status : ℕ) (code message : String)
  | site (status : ℕ) (site : SiteJSON)
  | proof (domain txtName txtValue verifyWith : String)
  | verified (domain : String)
  | deployed (deployID : String) (files : ℕ) (bytes : ℤ) (slug url : String)
  | rolledBack (slug current : String)
  | noContent
  | aborted
  deriving DecidableEq

/-- `writeErr` of a failed store method. -/
def storeFailed : Response := .error 500 "internal" "store failed"

def notFound (message : String) : Response := .error 404 "not_found" message

def notYourSite : Response := .error 403 "bad_signature" "not your site"

/-- What is known of a request when its handler starts to work on it: the
outcome of the gate and read-only checks, and the key whose signature over a
subject is accepted, or the answer of the failed check. -/
structure Request where
  gate : Except Response Unit
  authed : String → Except Response PubKey
  slug : String

/-- The label under which owners publish the TXT record of a domain. -/
def verifyPrefix : String := "_tactile-verify."

/-- Scopes the DNS verification tokens. -/
def domainVerify : Bytes := "tactile-publish/verify/v1".toUTF8.data.toList

namespace Server

variable (srv : Server)

def fileOf : String → String := domainFile srv.codec.sha256

/-- The expected TXT value for a site and a domain. -/
def verifyToken (slug domain : String) : String :=
  let msg := domainVerify ++ slug.toUTF8.data.toList ++ [0] ++ domain.toUTF8.data.toList
  "tactile-publish=" ++ srv.rawURLEncode (srv.hmac msg)

/-- Whether a label of a domain name has only letters, digits and inner dashes. -/
def validLabel (label : List Char) : Bool :=
  0 < label.length ∧ label.length ≤ 63 ∧ label.head? ≠ some '-' ∧ label.getLast? ≠ some '-' ∧
    label.all fun c => ('a' ≤ c ∧ c ≤ 'z') ∨ ('0' ≤ c ∧ c ≤ '9') ∨ c = '-'

/-- The string without one dot at its end. -/
def trimDot (d : String) : String :=
  if d.toList.getLast? = some '.' then String.ofList d.toList.dropLast else d

/-- Lowercases, strips a trailing dot and validates the shape of a domain. -/
def normalizeDomain (d : String) : Option String :=
  let d := srv.toLower (trimDot (srv.trimSpace d))
  if d.utf8ByteSize < 4 ∨ d.utf8ByteSize > 253 ∨ '.' ∉ d.toList then none
  else if (d.toList.splitOn '.').all validLabel then some d
  else none

/-- The pattern of a slug: a letter or digit, then up to 62 letters, digits and
dashes. -/
def validSlug (slug : String) : Bool :=
  let letter := fun c : Char => ('a' ≤ c ∧ c ≤ 'z') ∨ ('0' ≤ c ∧ c ≤ '9')
  match slug.toList with
  | [] => false
  | c :: cs => letter c ∧ cs.length ≤ 62 ∧ cs.all fun c => letter c ∨ c = '-'

def siteURL (slug : String) : String :=
  if srv.cfg.baseDomain ≠ "" then "https://" ++ slug ++ "." ++ srv.cfg.baseDomain
  else "/s/" ++ slug ++ "/"

end Server

section Usage

/-- What has been counted of an identity's deploys. -/
structure Counted where
  usage : Usage
  seen : List Digest

def countFile (acc : Counted) (f : FileEntry) : Counted :=
  match f.hashBytes with
  | none => acc
  | some h =>
    if h ∈ acc.seen then acc
    else
      { usage := { acc.usage with bytes := acc.usage.bytes + f.size, files := acc.usage.files + 1 }
        seen := h :: acc.seen }

def countDeploy (slug : String) (acc : Counted) (id : String) : NodeM Counted := do
  let d : Option Deploy ← node (.getDeploy slug id)
  match d with
  | none => pure acc
  | some d => pure (d.files.foldl countFile acc)

def countSite (owner : PubKey) (acc : Counted) (m : SiteMeta) : NodeM Counted :=
  if m.owner ≠ owner then pure acc
  else
    m.deploys.foldlM (countDeploy m.slug)
      { acc with usage := { acc.usage with sites := acc.usage.sites + 1 } }

/-- Deduplicated bytes across all of an identity's retained deploys. -/
def identityUsage (owner : PubKey) : NodeM (Except Err Usage) := do
  let listed : Except Err (List SiteMeta) ← node .listSites
  match listed with
  | .error e => pure (.error e)
  | .ok sites => do
    let counted ← sites.foldlM (countSite owner) ⟨⟨0, 0, 0⟩, []⟩
    pure (.ok counted.usage)

end Usage

section Sites

variable (srv : Server)

/-- `PUT /v1/sites/slug`: creates or updates a site. The title is the decoded
body, `powOK` the outcome of the proof of work. -/
def handlePutSite (req : Request) (title : Option String) (powOK : Bool) : NodeM Response :=
  match req.gate with
  | .error r => pure r
  | .ok () =>
    if Server.validSlug req.slug = false ∨ req.slug ∈ srv.cfg.reservedSlugs then
      pure (.error 400 "bad_request" "invalid or reserved slug")
    else
      match req.authed req.slug with
      | .error r => pure r
      | .ok pub =>
        match title with
        | none => pure (.error 400 "bad_request" "bad body")
        | some title => withSiteLock req.slug do
          let found : Option SiteMeta ← node (.getSite req.slug)
          match found with
          | some m =>
            if m.owner ≠ pub then pure (.error 409 "conflict" "slug already claimed")
            else do
              let updated : ℤ ← node .now
              let m := { m with title := title, updated := updated }
              let put : Except Err Unit ← node (.putSite m)
              match put with
              | .error _ => pure storeFailed
              | .ok () => pure (.site 200 (siteJSON m))
          | none =>
            if srv.cfg.powBits > 0 ∧ powOK = false then
              pure (.error 403 "bad_pow"
                "proof of work missing or below difficulty; see GET /v1/challenge")
            else do
              let usage ← identityUsage pub
              match usage with
              | .error _ => pure storeFailed
              | .ok usage =>
                if usage.sites ≥ srv.cfg.maxSites then
                  pure (.error 403 "quota_exceeded" "site limit reached")
                else do
                  let created : ℤ ← node .now
                  let updated : ℤ ← node .now
                  let m : SiteMeta :=
                    { slug := req.slug, owner := pub, title := title, created := created
                      updated := updated, current := "", deploys := [], domains := [] }
                  let put : Except Err Unit ← node (.putSite m)
                  match put with
                  | .error _ => pure storeFailed
                  | .ok () => pure (.site 201 (siteJSON m))

/-- `DELETE /v1/sites/slug`: removes the site, its deploy history and domain
mappings. -/
def handleDeleteSite (req : Request) : NodeM Response :=
  match req.gate with
  | .error r => pure r
  | .ok () =>
    match req.authed req.slug with
    | .error r => pure r
    | .ok pub => do
      let found : Option SiteMeta ← node (.getSite req.slug)
      match found with
      | none => pure (notFound "not found")
      | some m =>
        if m.owner ≠ pub then pure notYourSite
        else withSiteLock req.slug do
          node (.deleteSite req.slug)
          pure .noContent

end Sites

section Domains

variable (srv : Server)

/-- What the three domain handlers do before their own work: they check the
request, take the site's lock and look up the caller's site. -/
def withOwnSite (req : Request) (body : Option String)
    (act : SiteMeta → String → PubKey → NodeM Response) : NodeM Response :=
  match req.gate with
  | .error r => pure r
  | .ok () =>
    match body with
    | none => pure (.error 400 "bad_request" "bad body")
    | some raw =>
      match srv.normalizeDomain raw with
      | none => pure (.error 400 "bad_domain" "invalid domain")
      | some domain =>
        match req.authed (req.slug ++ "|" ++ domain) with
        | .error r => pure r
        | .ok pub => withSiteLock req.slug do
          let found : Option SiteMeta ← node (.getSite req.slug)
          match found with
          | none => pure (notFound "not found")
          | some m => if m.owner ≠ pub then pure notYourSite else act m domain pub

def domainProof (slug domain : String) : Response :=
  .proof domain (verifyPrefix ++ domain) (srv.verifyToken slug domain)
    ("POST /v1/sites/" ++ slug ++ "/domains/verify")

/-- `POST /v1/sites/slug/domains`: attaches an unverified domain and returns the
TXT proof to publish. -/
def handleAddDomain (req : Request) (body : Option String) : NodeM Response :=
  withOwnSite srv req body fun m domain pub =>
    if (m.domain domain).isSome then pure (domainProof srv req.slug domain)
    else do
      let listed : Except Err (List SiteMeta) ← node .listSites
      match listed with
      | .error _ => pure storeFailed
      | .ok sites =>
        let count := ((sites.filter fun m => m.owner = pub).map fun m => m.domains.length).sum
        if (count : ℤ) ≥ srv.cfg.maxDomains then
          pure (.error 403 "quota_exceeded" "domain limit reached")
        else do
          let other : Option String ← node (.resolveDomain domain)
          if other.any (· ≠ req.slug) then pure (.error 409 "conflict" "domain in use")
          else do
            let updated : ℤ ← node .now
            let put : Except Err Unit ← node (.putSite
              { m with domains := m.domains ++ [⟨domain, false⟩], updated := updated })
            match put with
            | .error _ => pure storeFailed
            | .ok () => pure (domainProof srv req.slug domain)

/-- The entries with every entry of a name verified. -/
def verifyEntries (domain : String) (entries : List DomainEntry) : List DomainEntry :=
  entries.map fun d => if d.name = domain then { d with verified := true } else d

/-- `POST /v1/sites/slug/domains/verify`: looks up the TXT proof and activates
the mapping. -/
def handleVerifyDomain (req : Request) (body : Option String) : NodeM Response :=
  withOwnSite srv req body fun m domain _ =>
    match m.domain domain with
    | none => pure (notFound "domain not attached")
    | some entry =>
      if entry.verified then pure (.verified domain)
      else do
        let want := srv.verifyToken req.slug domain
        let txts : Except String (List String) ← node (.lookupTXT (verifyPrefix ++ domain))
        match txts with
        | .error cause => pure (.error 502 "bad_domain" ("TXT lookup failed: " ++ cause))
        | .ok txts =>
          if want ∉ txts then
            pure (.error 412 "bad_domain" ("TXT record " ++ verifyPrefix ++ domain ++
              " does not contain the expected value"))
          else do
            let mapped : Except Err Unit ← node (.setDomain domain req.slug)
            match mapped with
            | .error _ => pure (.error 409 "conflict" "domain in use")
            | .ok () => do
              let updated : ℤ ← node .now
              let put : Except Err Unit ← node (.putSite
                { m with domains := verifyEntries domain m.domains, updated := updated })
              match put with
              | .error _ => pure storeFailed
              | .ok () => pure (.verified domain)

/-- `DELETE /v1/sites/slug/domains/domain`. -/
def handleDeleteDomain (req : Request) (domain : String) : NodeM Response :=
  withOwnSite srv req (some domain) fun m domain _ =>
    let removed := (m.domains.filter fun d => d.name = domain).getLast?
    let kept := m.domains.filter fun d => d.name ≠ domain
    match removed with
    | none => pure (notFound "domain not attached")
    | some removed => do
      let updated : ℤ ← node .now
      if removed.verified then node (.deleteDomain domain) else pure ()
      let put : Except Err Unit ← node (.putSite { m with domains := kept, updated := updated })
      match put with
      | .error _ => pure storeFailed
      | .ok () => pure .noContent

end Domains

end Tactile.Publish.Handlers
