import Tactile.Publish.Deploys
import Tactile.Publish.DeployCache
import Tactile.Publish.Extraction
import Tactile.Relay.ClientIP

/-!
The files of a site as they are served: which file of the current deploy answers a path,
and how the request for it is answered.
-/

namespace Tactile.Publish.Serving

open Tactile.Lib.Program Tactile.Lib.ByteString Tactile.Lib.CleanPath
open Tactile.Publish.Bundle Tactile.Publish.Records Tactile.Publish.NodeOps
open Tactile.Publish.Deploys Tactile.Publish.DeployCache Tactile.Publish.Extraction
open Tactile.Relay.ClientIP (trimSpace)

section Code

/-- What a request is answered from: the verdict of its rate, what the cache holds for the
site, the records of the store and its objects. -/
structure Sources where
  allowed : Bool
  cached : Option CachedDeploy
  getSite : String → Option SiteMeta
  getDeploy : String → String → Option Deploy
  openObject : Digest → Option Bytes

/-- What is read of a request beside its path. -/
structure SiteRequest where
  method : String
  ifNoneMatch : String

/-- Headers, in the order in which they are set. -/
abbrev Headers : Type := List (String × String)

/-- An error document, a plain text, a status alone, a page with its status, or content that
`http.ServeContent` writes, with its name and its time. -/
inductive Answer
  | error (status : ℕ) (code message : String)
  | text (status : ℕ) (body : String)
  | bare (status : ℕ)
  | page (status : ℕ) (headers : Headers) (body : Bytes)
  | content (headers : Headers) (name : String) (modified : ℤ) (body : Bytes)
  deriving DecidableEq

def currentDeploy (src : Sources) (slug : String) : Found :=
  match src.cached with
  | some c => .live c.site c.deploy
  | none =>
    match src.getSite slug with
    | none => .noSite
    | some m =>
      if m.current = "" then .noDeploys m
      else
        match src.getDeploy slug m.current with
        | none => .failed m
        | some d => .live m d

/-- A cleaned path as `path.Clean` writes it. -/
def render (p : CleanedPath) : Text :=
  if p.rooted then '/' :: List.intercalate ['/'] p.names.reverse
  else if p.names = [] then dot
  else List.intercalate ['/'] p.names.reverse

/-- `strings.TrimPrefix` of a slash. -/
def trimSlash : Text → Text
  | '/' :: path => path
  | path => path

def cleaned (reqPath : String) : String :=
  String.ofList (render (clean ('/' :: trimSlash reqPath.toList)))

/-- `path.Base`. -/
def base (path : Text) : Text :=
  if path = [] then dot
  else
    let last := ((path.reverse.dropWhile (· = '/')).takeWhile (· ≠ '/')).reverse
    if last = [] then ['/'] else last

def findFile (dep : Deploy) (p : String) : Option FileEntry := dep.files.find? fun f => f.path = p

def isHTMLish (mime : String) : Bool :=
  "text/html".toList.isPrefixOf mime.toList || "application/xhtml".toList.isPrefixOf mime.toList

/-- An `If-None-Match` header contains an ETag. -/
def matchETag (ifNoneMatch : String) (etag : Text) : Bool :=
  (ifNoneMatch.toList.splitOn ',').any fun t => trimSpace t = etag ∨ trimSpace t = ['*']

def etagOf (f : FileEntry) : Text := '"' :: f.hash.toList.take 32 ++ ['"']

def entryHeaders (dep : Deploy) (f : FileEntry) : Headers :=
  [("Content-Type", f.mime), ("ETag", String.ofList (etagOf f)),
      ("X-Content-Type-Options", "nosniff"), ("X-Deploy-Id", dep.id)] ++
    (if dep.options.noIndex then [("X-Robots-Tag", "noindex")] else []) ++ dep.options.headers ++
    [("Cache-Control",
      if isHTMLish f.mime then "public, max-age=60, must-revalidate" else "public, max-age=300")]

def serveEntry (src : Sources) (r : SiteRequest) (dep : Deploy) (f : FileEntry) (status : ℕ) :
    Answer :=
  match f.hashBytes with
  | none => .bare 500
  | some hash =>
    match src.openObject hash with
    | none => .text 404 "404 not found\n"
    | some body =>
      if matchETag r.ifNoneMatch (etagOf f) then .bare 304
      else if status = 404 then
        if r.method = "HEAD" then
          .page 404 (entryHeaders dep f ++ [("Content-Length", toString body.length)]) []
        else .page 404 (entryHeaders dep f) body
      else .content (entryHeaders dep f) (String.ofList (base f.path.toList)) dep.created body

def isHTML (path : String) : Bool := ".html".toList.isSuffixOf path.toList

/-- The file that answers a cleaned path. -/
def resolve (dep : Deploy) (clean : String) : Option FileEntry :=
  let entry := findFile dep clean
  let entry := if entry = none ∧ clean = "/" then findFile dep dep.options.entry else entry
  let entry :=
    if entry = none ∧ clean ≠ "/" then findFile dep (clean ++ "/index.html") else entry
  if entry = none ∧ ¬isHTML clean then findFile dep (clean ++ ".html") else entry

/-- Streams one file out of the current deploy of a site. -/
def serveSite (src : Sources) (r : SiteRequest) (slug reqPath : String) : Answer :=
  if src.allowed = false then .error 429 "rate_limited" "rate limited"
  else
    match currentDeploy src slug with
    | .noSite | .failed _ => .text 404 "no such site\n"
    | .noDeploys _ => .text 404 "site has no deploys yet\n"
    | .live _ dep =>
      match resolve dep (cleaned reqPath) with
      | some f => serveEntry src r dep f 200
      | none =>
        match findFile dep dep.options.notFound with
        | none => .text 404 "404 not found\n"
        | some f => serveEntry src r dep f 404

end Code

section Paths

variable {name : String}

theorem intercalate_parts (text : Text) :
    List.intercalate ['/'] (text.splitOn '/') = text := List.intercalate_splitOn '/'

/-- The path of a file is its own cleaned form. -/
theorem cleaned_file (h : SafeName name) : cleaned ("/" ++ name) = "/" ++ name := by
  have hlist : ("/" ++ name).toList = '/' :: name.toList := String.toList_append
  have hsplit : ('/' :: name.toList).splitOn '/' = [] :: name.toList.splitOn '/' := by
    rw [List.splitOn_cons_eq_if_modifyHead]
    simp
  have hclean : clean ('/' :: name.toList) = ⟨true, (name.toList.splitOn '/').reverse⟩ := by
    rw [clean, hsplit]
    change CleanedPath.mk true (walk true [] (name.toList.splitOn '/')) = _
    rw [walk_plains, List.append_nil]
    exact fun part hpart => ⟨(h.parts part hpart).1, (h.parts part hpart).2.1,
      (h.parts part hpart).2.2.1⟩
  rw [cleaned, hlist, trimSlash, hclean, render, if_pos rfl, List.reverse_reverse,
    intercalate_parts, ← hlist, String.ofList_toList]

end Paths

section Spec

/-- The files of a deploy with their contents. -/
abbrev Uploaded : Type := List (File × Bytes)

/-- The paths that may answer a cleaned path, in order. -/
def chain (opts : Options) (path : String) : List String :=
  [path] ++ (if path = "/" then [opts.entry] else []) ++ [path ++ "/index.html"] ++
    (if isHTML path then [] else [path ++ ".html"])

/-- The first of the paths that is in the deploy. -/
def pick (uploaded : Uploaded) (paths : List String) : Option (File × Bytes) :=
  paths.findSome? fun p => uploaded.find? fun c => c.1.path = p

/-- The request names the version of the file. -/
def names (ifNoneMatch : String) (f : File) : Bool := matchETag ifNoneMatch (etagOf (fileEntry f))

/-- A hit: the file's content is written, or the request has it already. -/
def Hit (ifNoneMatch : String) (c : File × Bytes) (ans : Answer) : Prop :=
  if names ifNoneMatch c.1 then ans = .bare 304
  else ∃ headers name modified, ans = .content headers name modified c.2

/-- A miss: the not-found document or a plain text, with status 404. -/
def Miss (uploaded : Uploaded) (opts : Options) (ans : Answer) : Prop :=
  match pick uploaded [opts.notFound] with
  | some c => ∃ headers, ans = .page 404 headers c.2
  | none => ans = .text 404 "404 not found\n"

/-- What a path of a deploy is to be answered with. -/
def Meets (uploaded : Uploaded) (opts : Options) (ifNoneMatch reqPath : String) (ans : Answer) :
    Prop :=
  match pick uploaded (chain opts (cleaned reqPath)) with
  | some c => Hit ifNoneMatch c ans
  | none => Miss uploaded opts ans

variable {uploaded : Uploaded} {dep : Deploy} {c : File × Bytes} {p : String}

/-- The manifest of a deploy with these files. -/
def Lists (dep : Deploy) (uploaded : Uploaded) : Prop :=
  dep.files = uploaded.map fun c => fileEntry c.1

theorem findFile_eq (h : Lists dep uploaded) (p : String) :
    findFile dep p = (uploaded.find? fun c => c.1.path = p).map fun c => fileEntry c.1 := by
  rw [findFile, h, List.find?_map]
  rfl

theorem pick_findFile (h : Lists dep uploaded) (paths : List String) :
    (pick uploaded paths).map (fun c => fileEntry c.1) = paths.findSome? (findFile dep) := by
  induction paths with
  | nil => rfl
  | cons p paths ih =>
      rw [pick, List.findSome?_cons, List.findSome?_cons, findFile_eq h p]
      cases uploaded.find? fun c => c.1.path = p with
      | none => exact ih
      | some c => rfl

/-- No file lies below an empty name. -/
theorem findFile_doubleSlash (h : Lists dep uploaded)
    (hsafe : ∀ c ∈ uploaded, ∃ name, c.1.path = "/" ++ name ∧ SafeName name) :
    findFile dep "//index.html" = none := by
  rw [findFile_eq h, Option.map_eq_none_iff, List.find?_eq_none]
  intro c hc hpath
  obtain ⟨name, hname, hsafe⟩ := hsafe c hc
  rw [hname] at hpath
  have hlist := congrArg String.toList (of_decide_eq_true hpath)
  rw [String.toList_append] at hlist
  have htail : name.toList = "/index.html".toList := List.cons_injective hlist
  exact hsafe.relative (htail ▸ rfl)

/-- The fallbacks of the code are those of the chain. -/
theorem resolve_eq (hdouble : findFile dep "//index.html" = none) (clean : String) :
    resolve dep clean = (chain dep.options clean).findSome? (findFile dep) := by
  rw [resolve, chain]
  by_cases hroot : clean = "/"
  · subst hroot
    have hindex : "/" ++ "/index.html" = "//index.html" := rfl
    have hhtml : isHTML "/" = false := by decide
    rw [hindex, hhtml]
    cases hfile : findFile dep "/" with
    | some f => simp [hfile]
    | none =>
        cases hentry : findFile dep dep.options.entry with
        | some f => simp [hfile, hentry]
        | none => simp [hfile, hentry, hdouble]
  · cases hfile : findFile dep clean with
    | some f => simp [hfile, hroot]
    | none =>
        cases hindex : findFile dep (clean ++ "/index.html") with
        | some f => simp [hfile, hindex, hroot]
        | none => cases hhtml : isHTML clean <;> simp [hfile, hindex, hroot]

theorem resolve_pick (h : Lists dep uploaded)
    (hsafe : ∀ c ∈ uploaded, ∃ name, c.1.path = "/" ++ name ∧ SafeName name) (clean : String) :
    resolve dep clean =
      (pick uploaded (chain dep.options clean)).map fun c => fileEntry c.1 := by
  rw [pick_findFile h, resolve_eq (findFile_doubleSlash h hsafe)]

/-- A file is the answer to its own path. -/
theorem pick_own (hnodup : (uploaded.map fun c => c.1.path).Nodup)
    (hsafe : ∀ c ∈ uploaded, ∃ name, c.1.path = "/" ++ name ∧ SafeName name) (opts : Options)
    (hc : c ∈ uploaded) : pick uploaded (chain opts (cleaned c.1.path)) = some c := by
  obtain ⟨name, hname, hsafe⟩ := hsafe c hc
  have hown : cleaned c.1.path = c.1.path := by rw [hname, cleaned_file hsafe]
  have hfind : (uploaded.find? fun c' => c'.1.path = c.1.path) = some c := by
    cases hfound : uploaded.find? fun c' => c'.1.path = c.1.path with
    | none =>
        have hall := List.find?_eq_none.mp hfound c hc
        exact absurd (decide_eq_true rfl) hall
    | some c' =>
        have htest := List.find?_some hfound
        have hpath : c'.1.path = c.1.path := of_decide_eq_true htest
        have hmem := List.mem_of_find?_eq_some hfound
        exact congrArg some (List.inj_on_of_nodup_map hnodup hmem hc hpath)
  rw [hown, pick, chain]
  simp [hfind]

end Spec

section Requests

variable {src : Sources} {uploaded : Uploaded} {dep : Deploy} {c : File × Bytes}

theorem pick_mem {paths : List String} (h : pick uploaded paths = some c) : c ∈ uploaded := by
  obtain ⟨p, -, hp⟩ := List.exists_of_findSome?_eq_some h
  exact List.mem_of_find?_eq_some hp

/-- How a stored file is answered. -/
theorem serveEntry_stored (hopen : src.openObject c.1.hash = some c.2) (inm : String) (status : ℕ) :
    serveEntry src ⟨"GET", inm⟩ dep (fileEntry c.1) status =
      if names inm c.1 then .bare 304
      else if status = 404 then .page 404 (entryHeaders dep (fileEntry c.1)) c.2
      else .content (entryHeaders dep (fileEntry c.1)) (String.ofList (base c.1.path.toList))
        dep.created c.2 := by
  have hhash : (fileEntry c.1).hashBytes = some c.1.hash := hashBytes_hexEncode _ _ _ _
  rw [serveEntry, hhash]
  dsimp only
  rw [hopen]
  rfl

theorem serveEntry_hit (hopen : src.openObject c.1.hash = some c.2) (inm : String) :
    Hit inm c (serveEntry src ⟨"GET", inm⟩ dep (fileEntry c.1) 200) := by
  rw [serveEntry_stored hopen, Hit]
  split
  · rfl
  · exact ⟨_, _, _, rfl⟩

/-- The not-found document is answered with status 404 unless the request names it. -/
theorem serveEntry_miss_iff (hopen : src.openObject c.1.hash = some c.2) (inm : String) :
    (∃ headers, serveEntry src ⟨"GET", inm⟩ dep (fileEntry c.1) 404 = .page 404 headers c.2) ↔
      names inm c.1 = false := by
  rw [serveEntry_stored hopen]
  cases names inm c.1 with
  | true => simp
  | false => simp

variable {slug : String} {m : SiteMeta}

theorem serveSite_live (hallowed : src.allowed = true) (hlive : currentDeploy src slug = .live m dep)
    (r : SiteRequest) (reqPath : String) :
    serveSite src r slug reqPath =
      match resolve dep (cleaned reqPath) with
      | some f => serveEntry src r dep f 200
      | none =>
        match findFile dep dep.options.notFound with
        | none => .text 404 "404 not found\n"
        | some f => serveEntry src r dep f 404 := by
  rw [serveSite, if_neg (by rw [hallowed]; decide), hlive]

theorem not_meets_limited {opts : Options} {inm reqPath : String} :
    ¬Meets uploaded opts inm reqPath (.error 429 "rate_limited" "rate limited") := by
  rw [Meets]
  split
  next c _ =>
    rw [Hit]
    split
    · exact nofun
    · rintro ⟨_, _, _, h⟩
      cases h
  next =>
    rw [Miss]
    split
    · rintro ⟨_, h⟩
      cases h
    · exact nofun

/-- A request that its rate allows is answered as it should be unless it names the not-found
document on a miss. -/
theorem allowed_meets_iff (hallowed : src.allowed = true)
    (hlive : currentDeploy src slug = .live m dep) (hlists : Lists dep uploaded)
    (hsafe : ∀ c ∈ uploaded, ∃ name, c.1.path = "/" ++ name ∧ SafeName name)
    (hstored : ∀ c ∈ uploaded, src.openObject c.1.hash = some c.2) (inm reqPath : String) :
    Meets uploaded dep.options inm reqPath (serveSite src ⟨"GET", inm⟩ slug reqPath) ↔
      (pick uploaded (chain dep.options (cleaned reqPath)) = none →
        ∀ c, pick uploaded [dep.options.notFound] = some c → names inm c.1 = false) := by
  have hfind : findFile dep dep.options.notFound =
      (pick uploaded [dep.options.notFound]).map fun c => fileEntry c.1 := by
    rw [pick_findFile hlists]
    simp
  rw [serveSite_live hallowed hlive, resolve_pick hlists hsafe, Meets, hfind]
  cases hpick : pick uploaded (chain dep.options (cleaned reqPath)) with
  | some c => exact iff_of_true (serveEntry_hit (hstored c (pick_mem hpick)) inm) nofun
  | none =>
      dsimp only [Option.map_none]
      rw [Miss]
      cases hdoc : pick uploaded [dep.options.notFound] with
      | none => exact iff_of_true rfl fun _ => nofun
      | some c =>
          refine (serveEntry_miss_iff (hstored c (pick_mem hdoc)) inm).trans ?_
          simp

/-- A request to a site whose current deploy was uploaded and whose objects are stored is
answered as it should be exactly when its rate allows it and it does not name the not-found
document on a miss; and each file answers its own path. -/
theorem serveSite_meets_iff {codec : Codec} {lim : Limits} {σ : Type}
    {sink : File → Bytes → StateM σ (Except String Unit)} {stream : TarStream} {s : σ}
    {files : List File} {opts : Options}
    (hupload : outcome codec lim sink stream s = (.ok (files, opts), uploaded))
    {idTime created : ℤ} {r4 : ByteArr 4}
    (hlive : currentDeploy src slug = .live m (newDeploy slug idTime created r4 files opts))
    (hstored : ∀ c ∈ uploaded, src.openObject c.1.hash = some c.2) (inm reqPath : String) :
    (Meets uploaded opts inm reqPath (serveSite src ⟨"GET", inm⟩ slug reqPath) ↔
      src.allowed = true ∧ (pick uploaded (chain opts (cleaned reqPath)) = none →
        ∀ c, pick uploaded [opts.notFound] = some c → names inm c.1 = false)) ∧
    ∀ c ∈ uploaded, pick uploaded (chain opts (cleaned c.1.path)) = some c := by
  obtain ⟨rfl, hnodup, hsafe⟩ := extracted hupload
  refine ⟨?_, fun c hc => pick_own hnodup hsafe opts hc⟩
  cases hallowed : src.allowed with
  | false =>
      rw [serveSite, if_pos hallowed]
      exact iff_of_false not_meets_limited fun h => nomatch h.1
  | true =>
      have hlists : Lists (newDeploy slug idTime created r4 (uploaded.map Prod.fst) opts) uploaded :=
        List.map_map
      refine (allowed_meets_iff hallowed hlive hlists hsafe hstored inm reqPath).trans ?_
      exact ⟨fun h => ⟨rfl, h⟩, And.right⟩

end Requests

section Node

/-- A node as the source of a request, with what the cache hits. -/
def sourcesOf (x : CachedNode) (cached : Option CachedDeploy) (allowed : Bool) : Sources where
  allowed := allowed
  cached := cached
  getSite := x.node.store.getSite
  getDeploy := x.node.store.getDeploy
  openObject hash :=
    (x.node.store.mem.objIndex.lookup hash).bind fun _ => x.node.store.disk.objects.lookup hash

/-- The lookup of a running node finds the current deploy of these sources. -/
theorem currentDeploy_holds (b : Backend) (fileOf : String → String) (x : CachedNode)
    (slug : String) (allowed : Bool) :
    Holds (CacheServes b fileOf) (fun _ _ => True)
      (fun res _ => ∃ cached, (cached = none ∨ cached = x.mcache.lookup slug) ∧
        res = .found (currentDeploy (sourcesOf x cached allowed) slug))
      (DeployCache.currentDeploy slug) x := by
  refine ⟨trivial, fun hit x' hx' => ?_⟩
  cases hx' with
  | hit hentry => exact ⟨_, .inr hentry.symm, rfl⟩
  | miss =>
      refine ⟨trivial, fun site x' hx' => ?_⟩
      cases hx' with
      | node hsite =>
          cases hsite
          have hfound : currentDeploy (sourcesOf x none allowed) slug =
              match x.node.store.getSite slug with
              | none => .noSite
              | some m =>
                if m.current = "" then .noDeploys m
                else
                  match x.node.store.getDeploy slug m.current with
                  | none => .failed m
                  | some d => .live m d := rfl
          cases hm : x.node.store.getSite slug with
          | none => exact ⟨none, .inl rfl, by rw [hfound, hm]⟩
          | some m =>
              by_cases hcurrent : m.current = ""
              · refine (congrArg (fun p => Holds _ _ _ p x) (if_pos hcurrent)).mpr ?_
                exact ⟨none, .inl rfl, by rw [hfound, hm]; exact congrArg _ (if_pos hcurrent).symm⟩
              · refine (congrArg (fun p => Holds _ _ _ p x) (if_neg hcurrent)).mpr ?_
                refine ⟨trivial, fun dep x' hx' => ?_⟩
                cases hx' with
                | node hdep =>
                    cases hdep
                    have hlive : currentDeploy (sourcesOf x none allowed) slug =
                        match x.node.store.getDeploy slug m.current with
                        | none => .failed m
                        | some d => .live m d := by
                      rw [hfound, hm]
                      exact if_neg hcurrent
                    cases hd : x.node.store.getDeploy slug m.current with
                    | none => exact ⟨none, .inl rfl, by rw [hlive, hd]⟩
                    | some d =>
                        exact ⟨trivial, fun _ _ _ => ⟨none, .inl rfl, by rw [hlive, hd]⟩⟩

end Node

section Sample

open Tactile.Publish.Routing (sampleKey)

/-- A bundle of a not-found document alone. -/
def lostBundle : TarStream := .entries [⟨"404.html", .reg, 1, .ok [97]⟩] none

def lostFile : File := ⟨"/404.html", letterDigest, 1, "text/plain; charset=utf-8"⟩

def lostSources : Sources where
  allowed := true
  cached := none
  getSite _ := some ⟨"a", sampleKey, "", 0, 0, "0-00000000", ["0-00000000"], []⟩
  getDeploy _ _ := some (newDeploy "a" 0 0 ⟨[0, 0, 0, 0], Lib.ByteString.length_zeros4⟩ [lostFile] Options.zero.normalize)
  openObject hash := if hash = letterDigest then some [97] else none

theorem lost_meets :
    Meets [(lostFile, [97])] Options.zero.normalize "" "/gone"
      (serveSite lostSources ⟨"GET", ""⟩ "a" "/gone") := by
  have hupload : outcome sampleCodec ⟨10, 64, 640⟩ taking lostBundle () =
      (.ok ([lostFile], Options.zero.normalize), [(lostFile, [97])]) := by rfl
  have hlive : currentDeploy lostSources "a" =
      .live ⟨"a", sampleKey, "", 0, 0, "0-00000000", ["0-00000000"], []⟩
        (newDeploy "a" 0 0 ⟨[0, 0, 0, 0], Lib.ByteString.length_zeros4⟩ [lostFile] Options.zero.normalize) := by rfl
  refine (serveSite_meets_iff hupload hlive ?_ "" "/gone").1.mpr ⟨rfl, fun _ c hc => ?_⟩
  · intro c hc
    rw [List.mem_singleton.mp hc]
    rfl
  · rw [List.mem_singleton.mp (pick_mem hc)]
    decide +kernel

/-- A missing page whose not-found document the browser has is answered as not modified. -/
theorem lost_not_modified :
    serveSite lostSources ⟨"GET", "\"ca978112ca1bbdcafac231b39a23dc4d\""⟩ "a" "/gone" = .bare 304 ∧
      ¬Meets [(lostFile, [97])] Options.zero.normalize "\"ca978112ca1bbdcafac231b39a23dc4d\""
        "/gone" (serveSite lostSources ⟨"GET", "\"ca978112ca1bbdcafac231b39a23dc4d\""⟩ "a" "/gone") := by
  have hanswer : serveSite lostSources ⟨"GET", "\"ca978112ca1bbdcafac231b39a23dc4d\""⟩ "a" "/gone" =
      .bare 304 := by decide +kernel
  have hpick : pick [(lostFile, [97])] (chain Options.zero.normalize (cleaned "/gone")) = none := by
    decide +kernel
  have hdoc : pick [(lostFile, [97])] [Options.zero.normalize.notFound] = some (lostFile, [97]) := by
    decide +kernel
  refine ⟨hanswer, ?_⟩
  rw [hanswer, Meets, hpick]
  change ¬Miss _ _ _
  rw [Miss, hdoc]
  rintro ⟨_, h⟩
  cases h

end Sample

end Tactile.Publish.Serving
