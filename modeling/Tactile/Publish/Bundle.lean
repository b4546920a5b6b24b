import Mathlib.Data.List.Basic
import Mathlib.Algebra.Order.Ring.Nat
import Tactile.Lib.ByteString

/-!
Deploy bundles: the checks on the entries of a tar stream, in the order in which
they are read, with every accepted file handed to a sink.
-/

namespace Tactile.Publish.Bundle

open Tactile.Lib.ByteString

abbrev Digest : Type := ByteArr 32

/-- The reserved control file inside a bundle. -/
def manifestName : String := "publish.json"

/-- Limits bound what `extract` accepts. -/
structure Limits where
  maxFiles : ℤ
  maxFileBytes : Int64
  maxSiteBytes : ℤ

/-- Site-level settings taken from publish.json. -/
structure Options where
  title : String
  entry : String
  notFound : String
  noIndex : Bool
  headers : List (String × String)
  deriving DecidableEq, Inhabited

def Options.zero : Options := ⟨"", "", "", false, []⟩

def Options.normalize (o : Options) : Options :=
  { o with
    entry := if o.entry = "" then "/index.html" else o.entry
    notFound := if o.notFound = "" then "/404.html" else o.notFound }

/-- One extracted regular file. -/
structure File where
  path : String
  hash : Digest
  size : ℤ
  mime : String
  deriving DecidableEq

/-- The errors of `extract`, with what their texts are made of. -/
inductive BundleErr
  | notTar
  | badTar (cause : String)
  | badType (name : String) (typeflag : ℕ)
  | badPath (name : String)
  | dupPath (path : String)
  | fileBigHeader (path : String) (size : ℤ)
  | fileBig (path : String)
  | siteBig
  | tooMany
  | read (cause : String)
  | sink (cause : String)
  | badManifest (cause : String)
  deriving DecidableEq

/-- The text of an error; `quote` prints a quoted string. -/
def BundleErr.text (quote : String → String) : BundleErr → String
  | .notTar => "bundle: not a tar stream"
  | .badTar cause => "bundle: not a tar stream: " ++ cause
  | .badType name typeflag => "bundle: unsafe path: " ++ name ++ " (type " ++ toString typeflag ++ ")"
  | .badPath name => "bundle: unsafe path: " ++ quote name
  | .dupPath path => "bundle: duplicate path: " ++ path
  | .fileBigHeader path size =>
      "bundle: file too large: " ++ path ++ " (" ++ toString size ++ " bytes)"
  | .fileBig path => "bundle: file too large: " ++ path
  | .siteBig => "bundle: extracted site too large"
  | .tooMany => "bundle: too many files"
  | .read cause => cause
  | .sink cause => cause
  | .badManifest cause => "bundle: bad " ++ manifestName ++ ": " ++ cause

/-- The errors that are about a limit: `ErrTooMany`, `ErrFileBig`, `ErrSiteBig`. -/
def BundleErr.overLimit : BundleErr → Bool
  | .fileBigHeader .. | .fileBig _ | .siteBig | .tooMany => true
  | _ => false

inductive TarType
  | dir
  | reg
  | other (flag : ℕ)
  deriving DecidableEq

/-- An entry of the tar stream: its header and what reading its content gives. -/
structure TarEntry where
  name : String
  typeflag : TarType
  size : ℤ
  content : Except String Bytes

/-- Validates a tar entry name and gives it its "/a/b" form. A name without
empty and dotted segments is its own cleaned form. -/
def cleanPath (name : String) : Option String :=
  if name = "" ∨ name.utf8ByteSize > 512 ∨ '\\' ∈ name.toList ∨ name.toList.head? = some '/' then
    none
  else if (name.toList.splitOn '/').any fun seg => seg = [] ∨ seg = ['.'] ∨ seg = ['.', '.'] then
    none
  else if '\x00' ∈ name.toList then none
  else some ("/" ++ name)

/-- What is read of a content up to a limit: nothing when the limit is not positive. -/
def limitReader (content : Bytes) (n : Int64) : Bytes := content.take n.toNatClampNeg

/-- The library code that `extract` uses: the hash, the choice of a content
type and the decoding of publish.json over given settings. -/
structure Codec where
  sha256 : Bytes → Digest
  mimeOf : String → Bytes → String
  parse : Options → Bytes → Except String Options

/-- What has been extracted so far. -/
structure Extracted where
  files : List File
  total : ℤ
  seen : List String
  manifest : Option Bytes

def Extracted.none : Extracted := ⟨[], 0, [], Option.none⟩

section Extract

variable {m : Type → Type} [Monad m] (codec : Codec) (lim : Limits)
variable (sink : File → Bytes → m (Except String Unit))

/-- What `extract` does with one entry. -/
def extractEntry (acc : Extracted) (e : TarEntry) : m (Except BundleErr Extracted) :=
  match e.typeflag with
  | .dir => pure (.ok acc)
  | .other flag => pure (.error (.badType e.name flag))
  | .reg =>
    match cleanPath e.name with
    | none => pure (.error (.badPath e.name))
    | some p =>
      if p ∈ acc.seen then pure (.error (.dupPath p))
      else if e.size > lim.maxFileBytes.toInt then pure (.error (.fileBigHeader p e.size))
      else
        match e.content with
        | .error cause => pure (.error (.read cause))
        | .ok content =>
          let data := limitReader content (lim.maxFileBytes + 1)
          let total := acc.total + data.length
          if (data.length : ℤ) > lim.maxFileBytes.toInt then pure (.error (.fileBig p))
          else if total > lim.maxSiteBytes then pure (.error .siteBig)
          else if p = "/" ++ manifestName then
            pure (.ok { acc with total := total, seen := p :: acc.seen, manifest := some data })
          else if (acc.files.length : ℤ) + 1 > lim.maxFiles then pure (.error .tooMany)
          else do
            let f : File :=
              { path := p, hash := codec.sha256 data, size := data.length
                mime := codec.mimeOf p data }
            let sunk ← sink f data
            match sunk with
            | .error cause => pure (.error (.sink cause))
            | .ok () =>
              pure (.ok { acc with files := acc.files ++ [f], total := total, seen := p :: acc.seen })

def extractEntries : List TarEntry → Extracted → m (Except BundleErr Extracted)
  | [], acc => pure (.ok acc)
  | e :: es, acc => do
    let next ← extractEntry codec lim sink acc e
    match next with
    | .error err => pure (.error err)
    | .ok acc => extractEntries es acc

/-- The settings of the bundle. -/
def finish (acc : Extracted) : Except BundleErr (List File × Options) :=
  match acc.manifest with
  | none => .ok (acc.files, Options.zero.normalize)
  | some data =>
    match codec.parse Options.zero data with
    | .error cause => .error (.badManifest cause)
    | .ok opts => .ok (acc.files, opts.normalize)

/-- A bundle as the tar reader hands it out: not readable at all, or entries up
to the end of the stream or to an error. -/
inductive TarStream
  | unreadable
  | entries (es : List TarEntry) (broken : Option String)

/-- Reads a bundle, calling the sink with each file's content after hashing. -/
def extract : TarStream → m (Except BundleErr (List File × Options))
  | .unreadable => pure (.error .notTar)
  | .entries es broken => do
    let read ← extractEntries codec lim sink es .none
    match read with
    | .error err => pure (.error err)
    | .ok acc =>
      match broken with
      | some cause => pure (.error (.badTar cause))
      | none => pure (finish codec acc)

end Extract

end Tactile.Publish.Bundle
