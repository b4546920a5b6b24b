import Tactile.Lib.FiniteMap
import Tactile.Lib.ByteString
import Tactile.Publish.Bundle

/-!
The persistence layer of a publish node: the records that both backends keep,
what a node keeps of them in memory, and the backend methods on both.
-/

namespace Tactile.Publish.Records

open Tactile.Lib.FiniteMap Tactile.Lib.ByteString
open Tactile.Publish.Bundle

abbrev PubKey : Type := ByteArr 32

/-- One file inside a deploy manifest. -/
structure FileEntry where
  path : String
  hash : String
  size : ℤ
  mime : String
  deriving DecidableEq

/-- The value of a lower-case hexadecimal digit. -/
def hexDigit (c : Char) : Option ℕ :=
  if '0' ≤ c ∧ c ≤ '9' then some (c.toNat - '0'.toNat)
  else if 'a' ≤ c ∧ c ≤ 'f' then some (c.toNat - 'a'.toNat + 10)
  else none

def hexDecode : List Char → Option Bytes
  | [] => some []
  | [_] => none
  | high :: low :: rest => do
    let h ← hexDigit high
    let l ← hexDigit low
    let bs ← hexDecode rest
    pure (UInt8.ofNat (16 * h + l) :: bs)

theorem hexDecode_hexByte (b : UInt8) (rest : List Char) :
    hexDecode (hexByte b ++ rest) = (hexDecode rest).map (b :: ·) := by
  have hall : ∀ n : Fin 16, hexDigit n.val.digitChar = some n.val := by decide
  have hb := b.toNat_lt
  have hhigh := hall ⟨b.toNat / 16, by omega⟩
  have hlow := hall ⟨b.toNat % 16, by omega⟩
  have hbyte : UInt8.ofNat (16 * (b.toNat / 16) + b.toNat % 16) = b := by
    rw [Nat.div_add_mod, UInt8.ofNat_toNat]
  change (hexDigit _ >>= fun h => hexDigit _ >>= fun l => _) = _
  rw [hhigh, hlow]
  change (hexDecode rest >>= fun bs => some (UInt8.ofNat _ :: bs)) = _
  rw [hbyte]
  cases hexDecode rest <;> rfl

/-- Decoding reads back what `hexEncode` writes. -/
theorem hexDecode_hexEncode (bs : Bytes) : hexDecode (hexEncode bs).toList = some bs := by
  rw [hexEncode, String.toList_ofList]
  induction bs with
  | nil => rfl
  | cons b bs ih => rw [List.flatMap_cons, hexDecode_hexByte, ih, Option.map_some]

/-- Decodes a `FileEntry` hash; `none` is `ErrCorrupt`. -/
def FileEntry.hashBytes (f : FileEntry) : Option Digest :=
  match hexDecode f.hash.toList with
  | some bs => if h : bs.length = 32 then some ⟨bs, h⟩ else none
  | none => none

theorem hashBytes_hexEncode (path mime : String) (size : ℤ) (h : Digest) :
    FileEntry.hashBytes ⟨path, hexEncode h.val, size, mime⟩ = some h := by
  simp only [FileEntry.hashBytes, hexDecode_hexEncode, h.property, dite_true]

/-- An immutable site snapshot. -/
structure Deploy where
  id : String
  slug : String
  created : ℤ
  bytes : ℤ
  files : List FileEntry
  options : Options
  deriving DecidableEq

/-- The hashes that a manifest lists. -/
def Deploy.hashes (d : Deploy) : List Digest := d.files.filterMap FileEntry.hashBytes

/-- A custom domain attached to a site. -/
structure DomainEntry where
  name : String
  verified : Bool
  deriving DecidableEq

/-- Everything the node knows about one claimed slug. -/
structure SiteMeta where
  slug : String
  owner : PubKey
  title : String
  created : ℤ
  updated : ℤ
  current : String
  deploys : List String
  domains : List DomainEntry
  deriving DecidableEq

/-- The first entry for a name. -/
def SiteMeta.domain (m : SiteMeta) (name : String) : Option DomainEntry :=
  m.domains.find? fun d => d.name = name

/-- The content of a file under meta/domains. -/
structure DomainRecord where
  domain : String
  slug : String
  deriving DecidableEq

/-- Per-identity accounting, deduplicated across retained deploys. -/
structure Usage where
  bytes : ℤ
  sites : ℤ
  files : ℤ
  deriving DecidableEq

inductive Err
  | emptySlug
  | domainUse
  | read
  | write
  deriving DecidableEq

/-- The records of a store: site records by slug, domain records by file name,
deploy manifests by slug and id, objects by hash. -/
structure Disk where
  sites : Dict String SiteMeta
  domains : Dict String DomainRecord
  deploys : Dict (String × String) Deploy
  objects : Dict Digest Bytes

/-- What a node keeps in memory: the object index with its total, the map of
verified domains and, over an object service, the slugs present. -/
structure Memory where
  objIndex : Dict Digest ℤ
  totalBytes : ℤ
  domains : Dict String String
  sites : List String

structure Store where
  disk : Disk
  mem : Memory

inductive Backend
  | fs
  | s3
  deriving DecidableEq

/-- The file name of a domain's record: the hexadecimal digest of the domain. -/
def domainFile (sha256 : Bytes → Digest) (domain : String) : String :=
  hexEncode (sha256 domain.toUTF8.data.toList).val ++ ".json"

namespace Store

/-- The domain map that the records give. -/
def loadDomains (files : Dict String DomainRecord) : Dict String String :=
  ofPairs (((values files).filter fun rec => rec.domain ≠ "" ∧ rec.slug ≠ "").map fun rec =>
    (rec.domain, rec.slug))

/-- The slugs present. -/
def loadSites (files : Dict String SiteMeta) : List String := files.keys.filter (· ≠ "")

/-- The memory that opening a store on existing records builds. -/
def load (b : Backend) (disk : Disk) : Store where
  disk := disk
  mem :=
    { objIndex := mapValues (fun data => (data.length : ℤ)) disk.objects
      totalBytes := total disk.objects fun _ data => (data.length : ℤ)
      domains := loadDomains disk.domains
      sites :=
        match b with
        | .fs => []
        | .s3 => loadSites disk.sites }

/-- Reloads what other nodes may have written. -/
def refresh (b : Backend) (s : Store) : Store :=
  { s with
    mem :=
      { s.mem with
        domains := loadDomains s.disk.domains
        sites :=
          match b with
          | .fs => s.mem.sites
          | .s3 => loadSites s.disk.sites } }

def getSite (s : Store) (slug : String) : Option SiteMeta := s.disk.sites.lookup slug

/-- The slugs present after a site record has been written. -/
def withSlug (b : Backend) (slug : String) (sites : List String) : List String :=
  match b with
  | .fs => sites
  | .s3 => if slug ∈ sites then sites else slug :: sites

/-- Upserts a site record; `written` says whether the write succeeds. -/
def putSite (b : Backend) (m : SiteMeta) (written : Bool) (s : Store) : Except Err Unit × Store :=
  if m.slug = "" then (.error .emptySlug, s)
  else if written = false then (.error .write, s)
  else
    (.ok (),
      { disk := { s.disk with sites := s.disk.sites.insert m.slug m }
        mem := { s.mem with sites := withSlug b m.slug s.mem.sites } })

/-- Removes the site record and all its deploy manifests, and forgets the
domains mapped to it. -/
def FS.deleteSite (slug : String) (s : Store) : Store where
  disk :=
    { s.disk with
      sites := s.disk.sites.erase slug
      deploys := select s.disk.deploys fun k _ => k.1 ≠ slug }
  mem := { s.mem with domains := select s.mem.domains fun _ sl => sl ≠ slug }

/-- Removes the site record, its deploys and domain mappings. -/
def S3.deleteSite (fileOf : String → String) (slug : String) (s : Store) : Store :=
  match s.getSite slug with
  | none => { s with disk := { s.disk with sites := s.disk.sites.erase slug } }
  | some m =>
    let deploys := m.deploys.foldl (fun d id => d.erase (slug, id)) s.disk.deploys
    let mapped := keysWhere s.mem.domains fun _ sl => sl = slug
    { disk :=
        { s.disk with
          sites := s.disk.sites.erase slug
          deploys := deploys
          domains := mapped.foldl (fun f d => f.erase (fileOf d)) s.disk.domains }
      mem :=
        { s.mem with
          domains := select s.mem.domains fun _ sl => sl ≠ slug
          sites := s.mem.sites.filter (· ≠ slug) } }

def deleteSite (b : Backend) (fileOf : String → String) (slug : String) (s : Store) : Store :=
  match b with
  | .fs => FS.deleteSite slug s
  | .s3 => S3.deleteSite fileOf slug s

/-- Every site record, over an object service of the slugs present. -/
def listSites (b : Backend) (s : Store) : List SiteMeta :=
  match b with
  | .fs => values s.disk.sites
  | .s3 => s.mem.sites.filterMap s.getSite

def resolveDomain (s : Store) (domain : String) : Option String := s.mem.domains.lookup domain

/-- Records a verified domain mapping; `written` says whether the write
succeeds. -/
def setDomain (fileOf : String → String) (domain slug : String) (written : Bool) (s : Store) :
    Except Err Unit × Store :=
  if (s.resolveDomain domain).any (· ≠ slug) then (.error .domainUse, s)
  else if written = false then (.error .write, s)
  else
    (.ok (),
      { disk := { s.disk with domains := s.disk.domains.insert (fileOf domain) ⟨domain, slug⟩ }
        mem := { s.mem with domains := s.mem.domains.insert domain slug } })

/-- Removes a mapping. -/
def deleteDomain (fileOf : String → String) (domain : String) (s : Store) : Store where
  disk := { s.disk with domains := s.disk.domains.erase (fileOf domain) }
  mem := { s.mem with domains := s.mem.domains.erase domain }

/-- Writes an immutable deploy manifest; `written` says whether the write
succeeds. -/
def putDeploy (d : Deploy) (written : Bool) (s : Store) : Except Err Unit × Store :=
  if written = false then (.error .write, s)
  else
    (.ok (), { s with disk := { s.disk with deploys := s.disk.deploys.insert (d.slug, d.id) d } })

/-- Reads a manifest; `none` is `ErrNotFound`. -/
def getDeploy (s : Store) (slug id : String) : Option Deploy := s.disk.deploys.lookup (slug, id)

def deleteDeploy (slug id : String) (s : Store) : Store :=
  { s with disk := { s.disk with deploys := s.disk.deploys.erase (slug, id) } }

/-- Whether an object is known, which makes a put of it a dedup hit: the
file-system store also looks for the file. -/
def known (b : Backend) (hash : Digest) (s : Store) : Bool :=
  match b with
  | .fs => (s.mem.objIndex.lookup hash).isSome && (s.disk.objects.lookup hash).isSome
  | .s3 => (s.mem.objIndex.lookup hash).isSome

/-- Stores data under its content hash, skipping duplicates; `written` says
whether the write succeeds. -/
def putObject (b : Backend) (hash : Digest) (data : Bytes) (written : Bool) (s : Store) :
    Except Err Unit × Store :=
  if s.known b hash then (.ok (), s)
  else if written = false then (.error .write, s)
  else
    let mem :=
      if (s.mem.objIndex.lookup hash).isSome then s.mem
      else
        { s.mem with
          objIndex := s.mem.objIndex.insert hash data.length
          totalBytes := s.mem.totalBytes + data.length }
    (.ok (), { disk := { s.disk with objects := s.disk.objects.insert hash data }, mem := mem })

/-- Removes an object. -/
def deleteObject (hash : Digest) (s : Store) : Store where
  disk := { s.disk with objects := s.disk.objects.erase hash }
  mem :=
    match s.mem.objIndex.lookup hash with
    | none => s.mem
    | some size =>
      { s.mem with
        objIndex := s.mem.objIndex.erase hash
        totalBytes := s.mem.totalBytes - size }

end Store

end Tactile.Publish.Records
