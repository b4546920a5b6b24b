import Tactile.Lib.Script
import Tactile.Utils.Encoding

/-!
The identity of a device, and the codes that carry its seed to another device.
-/

namespace Tactile.Sync.SyncCode

open Tactile.Lib.Program Tactile.Lib.Script Tactile.Lib.ByteString Tactile.Lib.Base64
open Tactile.Lib.CodeUnits Tactile.Utils.Encoding

section Types

structure TactileIdentity where
  secretKeyHex : JsString
  publicKeyHex : JsString
  publicKeyBase64 : JsString

/-- An error of the module, or a failure of what it calls. -/
inductive Failure
  | error (message : String)
  | platform
deriving DecidableEq

/-- A read that throws is no rejected promise, and is not caught as one is. -/
inductive ReadFailure
  | rejected
  | thrown
deriving DecidableEq

inductive IdentityOp
  | readIdentity
  | writeIdentity (seedHex : JsString)
  | randomSecretKey
  | getPublicKey (secret : Bytes)

abbrev IdentityAns : IdentityOp → Type
  | .readIdentity => Except ReadFailure (Option JsString)
  | .writeIdentity _ => Except Failure Unit
  | .randomSecretKey => ByteArr 32
  | .getPublicKey _ => Except Failure Bytes

/-- The promise that callers share, once there is one. -/
abbrev IdentityPromise : Type := Option (Except Failure TactileIdentity)

abbrev IdentityMethod : Type → Type := Method IdentityOp IdentityAns Failure IdentityPromise

end Types

section Identity

/-- 64 hexadecimal digits. -/
def seedHex (s : JsString) : Bool := s.length == 64 && s.all fun u => (hexDigit u).isSome

/-- What the browser's functions give, or the error they throw. -/
def orThrow {α : Type} : Option α → IdentityMethod α
  | some a => pure a
  | none => throw .platform

def getPublicKey (secret : Bytes) : IdentityMethod Bytes := do
  let ans ← Method.perform (.getPublicKey secret)
  Method.ofExcept id ans

def writeIdentity (hex : JsString) : IdentityMethod Unit := do
  let ans ← Method.perform (.writeIdentity hex)
  Method.ofExcept id ans

def buildIdentity (secret : Bytes) : IdentityMethod TactileIdentity := do
  let pub ← getPublicKey secret
  let base64 ← orThrow (bytesToBase64 pub)
  return ⟨bytesToHex secret, bytesToHex pub, base64⟩

/-- The stored text, or none when its read was rejected. -/
def readIdentity : IdentityMethod (Option JsString) := do
  let stored : IdentityAns .readIdentity ← Method.perform IdentityOp.readIdentity
  match stored with
  | .ok stored => pure stored
  | .error .rejected => pure none
  | .error .thrown => throw .platform

def loadIdentity : IdentityMethod TactileIdentity := do
  let stored ← readIdentity
  match stored.filter fun s => seedHex (trim s) with
  | some s => buildIdentity (hexToBytes (trim s))
  | none =>
    let secret : ByteArr 32 ← Method.perform IdentityOp.randomSecretKey
    writeIdentity (bytesToHex secret.val)
    buildIdentity secret.val

/-- What a promise settles to is kept for the callers to come. -/
def settle (m : IdentityMethod TactileIdentity) : IdentityMethod TactileIdentity := do
  let out ← m.outcome
  Method.update fun _ => some out
  Method.ofExcept id out

def getIdentity : IdentityMethod TactileIdentity := do
  match ← Method.read with
  | some out => Method.ofExcept id out
  | none => settle loadIdentity

def setIdentitySeed (seed : Bytes) : IdentityMethod TactileIdentity :=
  if seed.length ≠ 32 then throw (.error "identity seed must be 32 bytes")
  else do
    writeIdentity (bytesToHex seed)
    settle (buildIdentity seed)

end Identity

section Codes

def syncCodePrefix : JsString := js "tactilesync1:".toList

def exportSyncCode : IdentityMethod JsString := do
  let identity ← getIdentity
  let code ← orThrow (bytesToBase64Url (hexToBytes identity.secretKeyHex))
  return syncCodePrefix ++ code

def malformed : Failure := .error "Sync code is malformed"

/-- The seed of a code. -/
def decodeSyncCode (code : JsString) : Except Failure Bytes :=
  let trimmed := trim code
  if !syncCodePrefix.isPrefixOf trimmed then .error (.error "Not a Tactile sync code")
  else
    match base64UrlToBytes (trimmed.drop syncCodePrefix.length) with
    | none => .error malformed
    | some seed => if seed.length ≠ 32 then .error malformed else .ok seed

def importSyncCode (code : JsString) : IdentityMethod JsString := do
  let seed ← Method.ofExcept id (decodeSyncCode code)
  let _ ← setIdentitySeed seed
  let pub ← getPublicKey seed
  return bytesToHex pub

end Codes

section Devices

/-- A device whose platform may have hooks for an identity, and what they store. -/
structure Device where
  hooks : Bool
  stored : Option JsString

variable (pub : Bytes → Bytes)

/-- The answers of a device. When it is faulty, reads and writes of the identity may fail, and
a write that fails stores nothing; public keys are there for seeds of 32 bytes. -/
def Serves (faulty : Bool) : Answers IdentityOp IdentityAns Device := fun d o ans d' =>
  match o, ans with
  | .readIdentity, ans => d' = d ∧
      (ans = .ok (if d.hooks then d.stored else none) ∨ faulty = true ∧ ∃ e, ans = .error e)
  | .writeIdentity hex, ans =>
      (ans = .ok () ∧ d' = { d with stored := if d.hooks then some hex else d.stored }) ∨
        faulty = true ∧ ans = .error .platform ∧ d' = d
  | .randomSecretKey, _ => d' = d
  | .getPublicKey secret, ans => d' = d ∧
      (ans = .ok (pub secret) ∨ secret.length ≠ 32 ∧ ans = .error .platform)

def identityOf (seed : Bytes) : TactileIdentity :=
  ⟨bytesToHex seed, bytesToHex (pub seed), js (encode std true (pub seed))⟩

/-- The device signs with the seed, now and once it has read what it stores. -/
structure Installed (seed : Bytes) (mem : IdentityPromise) (d : Device) : Prop where
  cached : mem = some (.ok (identityOf pub seed))
  stored : d.hooks = true → d.stored = some (bytesToHex seed)

/-- The seed of a device: of the identity that it has loaded, or that it will load. -/
def HasSeed (seed : Bytes) (mem : IdentityPromise) (d : Device) : Prop :=
  mem = some (.ok (identityOf pub seed)) ∨
    mem = none ∧ d.hooks = true ∧ ∃ s, d.stored = some s ∧ seedHex (trim s) = true ∧
      hexToBytes (trim s) = seed

/-- The text behind the prefix denotes these bytes and no others. -/
def Codes (code : JsString) (seed : Bytes) : Prop :=
  ∃ part, trim code = syncCodePrefix ++ part ∧ Denotes part seed ∧
    ∀ other, Denotes part other → other = seed

section Rules

variable {pub} {faulty : Bool} {mem : IdentityPromise} {d : Device}
variable {E : Failure → IdentityPromise → Device → Prop}

/-- What every run that returns ends with, and every one that fails. -/
abbrev Ends {α : Type} (pub : Bytes → Bytes) (faulty : Bool)
    (Q : α → IdentityPromise → Device → Prop) (E : Failure → IdentityPromise → Device → Prop)
    (m : IdentityMethod α) (mem : IdentityPromise) (d : Device) : Prop :=
  Meets (Serves pub faulty) (fun _ _ => True) Q E m mem d

theorem ends_getPublicKey {seed : Bytes} (hseed : seed.length = 32)
    {Q : Bytes → IdentityPromise → Device → Prop} (h : Q (pub seed) mem d) :
    Ends pub faulty Q E (getPublicKey seed) mem d := by
  rw [Ends, getPublicKey, meets_bind, meets_perform]
  refine ⟨trivial, fun ans d' hans => ?_⟩
  obtain ⟨rfl, rfl | ⟨hlength, -⟩⟩ := hans
  · exact h
  · exact absurd hseed hlength

theorem ends_buildIdentity {seed : Bytes} (hseed : seed.length = 32)
    {Q : TactileIdentity → IdentityPromise → Device → Prop} (h : Q (identityOf pub seed) mem d) :
    Ends pub faulty Q E (buildIdentity seed) mem d := by
  rw [Ends, buildIdentity, meets_bind]
  apply ends_getPublicKey hseed
  rw [bytesToBase64_eq]
  exact h

theorem ends_settle {m : IdentityMethod TactileIdentity}
    {Q : TactileIdentity → IdentityPromise → Device → Prop}
    (h : Ends pub faulty (fun identity _ d' => Q identity (some (.ok identity)) d')
      (fun e _ d' => E e (some (.error e)) d') m mem d) : Ends pub faulty Q E (settle m) mem d := by
  rw [Ends, settle, meets_bind, meets_outcome]
  refine h.imp (fun identity mem' d' hQ => ?_) fun e mem' d' hE => ?_
  · exact hQ
  · exact hE

theorem ends_writeIdentity {hex : JsString} {Q : Unit → IdentityPromise → Device → Prop}
    (hok : Q () mem { d with stored := if d.hooks then some hex else d.stored })
    (herror : faulty = true → E .platform mem d) :
    Ends pub faulty Q E (writeIdentity hex) mem d := by
  rw [Ends, writeIdentity, meets_bind, meets_perform]
  refine ⟨trivial, fun ans d' hans => ?_⟩
  rcases hans with ⟨rfl, rfl⟩ | ⟨hfaulty, rfl, rfl⟩
  · exact hok
  · exact herror hfaulty

/-- A seed is installed, or the write of it failed and all is as it was. -/
theorem ends_setIdentitySeed {seed : Bytes} (hseed : seed.length = 32)
    {Q : TactileIdentity → IdentityPromise → Device → Prop}
    (hok : ∀ mem' d', Installed pub seed mem' d' → Q (identityOf pub seed) mem' d')
    (herror : faulty = true → E .platform mem d) :
    Ends pub faulty Q E (setIdentitySeed seed) mem d := by
  rw [Ends, setIdentitySeed, if_neg (not_not_intro hseed), meets_bind]
  refine ends_writeIdentity ?_ herror
  apply ends_settle
  apply ends_buildIdentity hseed
  refine hok _ _ ⟨rfl, fun hhooks => ?_⟩
  exact if_pos hhooks

/-- A code that decodes is installed, unless the write of its seed fails. -/
theorem ends_importSyncCode {code : JsString} {seed : Bytes}
    (hcode : decodeSyncCode code = .ok seed) (hseed : seed.length = 32)
    {Q : JsString → IdentityPromise → Device → Prop}
    (hok : ∀ mem' d', Installed pub seed mem' d' → Q (bytesToHex (pub seed)) mem' d')
    (herror : faulty = true → E .platform mem d) :
    Ends pub faulty Q E (importSyncCode code) mem d := by
  rw [Ends, importSyncCode, hcode, meets_bind, meets_ofExcept]
  refine ⟨fun seed' hok' => ?_, nofun⟩
  cases hok'
  rw [meets_bind]
  refine ends_setIdentitySeed hseed (fun mem' d' hinstalled => ?_) herror
  rw [meets_bind]
  apply ends_getPublicKey hseed
  exact hok mem' d' hinstalled

theorem ends_loadIdentity {text : JsString} {seed : Bytes} (hhooks : d.hooks = true)
    (hstored : d.stored = some text) (htext : seedHex (trim text) = true)
    (hseed : hexToBytes (trim text) = seed) (hlength : seed.length = 32)
    {Q : TactileIdentity → IdentityPromise → Device → Prop} (h : Q (identityOf pub seed) mem d) :
    Ends pub false Q E loadIdentity mem d := by
  rw [Ends, loadIdentity, meets_bind, readIdentity, meets_bind, meets_perform]
  refine ⟨trivial, fun ans d' hans => ?_⟩
  obtain ⟨rfl, rfl | ⟨hfaulty, -⟩⟩ := hans
  · rw [if_pos hhooks, hstored]
    have hfilter : (some text).filter (fun s => seedHex (trim s)) = some text := by
      rw [Option.filter_some, if_pos htext]
    change Meets _ _ _ _ (match (some text).filter (fun s => seedHex (trim s)) with
      | some s => buildIdentity (hexToBytes (trim s))
      | none => _) _ _
    rw [hfilter]
    change Ends pub false Q E (buildIdentity (hexToBytes (trim text))) mem d'
    rw [hseed]
    exact ends_buildIdentity hlength h
  · cases hfaulty

end Rules

/-- Every run of the method on a device that is not faulty ends so, and there is one. -/
def Gives {α : Type} (m : IdentityMethod α) (mem : IdentityPromise) (d : Device)
    (Q : α → IdentityPromise → Device → Prop) : Prop :=
  Ends pub false Q (fun _ _ _ => False) m mem d ∧
    ∃ a mem' d', Exec (Serves pub false) d (m.call mem) (.ok a, mem') d'

variable {pub} {mem : IdentityPromise} {d : Device}

/-- A device that is not faulty answers whatever it is asked. -/
theorem gives_of_ends {α : Type} {m : IdentityMethod α} {Q : α → IdentityPromise → Device → Prop}
    (h : Ends pub false Q (fun _ _ _ => False) m mem d) : Gives pub m mem d Q := by
  refine ⟨h, ?_⟩
  have htotal : ∀ (d : Device) (o : IdentityOp), True → ∃ ans d', Serves pub false d o ans d' := by
    intro d o _
    cases o with
    | readIdentity => exact ⟨_, d, rfl, .inl rfl⟩
    | writeIdentity hex => exact ⟨_, _, .inl ⟨rfl, rfl⟩⟩
    | randomSecretKey => exact ⟨⟨List.replicate 32 0, rfl⟩, d, rfl⟩
    | getPublicKey secret => exact ⟨_, d, rfl, .inl rfl⟩
  obtain ⟨⟨e | a, mem'⟩, d', hexec, hout⟩ := Holds.exists_exec h htotal
  · exact hout.elim
  · exact ⟨a, mem', d', hexec⟩

theorem notSpace_code (bytes : Bytes) :
    ∀ u ∈ syncCodePrefix ++ js (digits url bytes), isSpace u = false := by
  intro u hu
  rcases List.mem_append.mp hu with hu | hu
  · have hall : (syncCodePrefix.all fun u => !isSpace u) = true := by decide +kernel
    simpa using List.all_eq_true.mp hall u hu
  · obtain ⟨c, hc, rfl⟩ := List.mem_map.mp hu
    have hall : (url.chars.all fun c => !isSpace (unit c)) = true := by decide +kernel
    simpa using List.all_eq_true.mp hall c (mem_digits hc)

/-- White space around a code is no part of it. -/
theorem decodeSyncCode_digits (seed : ByteArr 32) {pre post : JsString}
    (hpre : ∀ u ∈ pre, isSpace u = true) (hpost : ∀ u ∈ post, isSpace u = true) :
    decodeSyncCode (pre ++ (syncCodePrefix ++ js (digits url seed.val)) ++ post) = .ok seed.val := by
  have hisPrefix : syncCodePrefix.isPrefixOf (syncCodePrefix ++ js (digits url seed.val)) = true :=
    List.isPrefixOf_iff_prefix.mpr (List.prefix_append _ _)
  rw [decodeSyncCode, trim_append hpre (notSpace_code seed.val) hpost]
  rw [hisPrefix, if_neg (by simp), List.drop_left, base64UrlToBytes_digits]
  exact if_neg (not_not_intro seed.2)

theorem decodeSyncCode_codes {code : JsString} {seed : Bytes} (h : decodeSyncCode code = .ok seed) :
    seed.length = 32 ∧ Codes code seed := by
  rw [decodeSyncCode] at h
  split at h
  · cases h
  next hinit =>
    split at h
    · cases h
    next decoded hdecoded =>
      split at h
      · cases h
      next hlength =>
        cases h
        have hstarts : syncCodePrefix <+: trim code := by simpa using hinit
        obtain ⟨part, hpart⟩ := hstarts
        rw [← hpart, List.drop_left] at hdecoded
        have hdenotes := base64UrlToBytes_denotes hdecoded
        exact ⟨not_not.mp hlength, part, hpart.symm, hdenotes, fun _ hother => hother.unique hdenotes⟩

theorem ends_exportSyncCode {seed : Bytes} (hlength : seed.length = 32) (h : HasSeed pub seed mem d)
    {Q : JsString → IdentityPromise → Device → Prop}
    (hQ : ∀ mem', Q (syncCodePrefix ++ js (digits url seed)) mem' d) :
    Ends pub false Q (fun _ _ _ => False) exportSyncCode mem d := by
  have hcode : ∀ mem', Ends pub false Q (fun _ _ _ => False) (do
      let code ← orThrow (bytesToBase64Url (hexToBytes (identityOf pub seed).secretKeyHex))
      return syncCodePrefix ++ code) mem' d := by
    intro mem'
    rw [identityOf, hexToBytes_bytesToHex, bytesToBase64Url_eq]
    exact hQ mem'
  rw [Ends, exportSyncCode, meets_bind, getIdentity, meets_bind, meets_read]
  rcases h with rfl | ⟨rfl, hhooks, text, hstored, htext, hseed⟩
  · exact hcode _
  · apply ends_settle
    exact ends_loadIdentity hhooks hstored htext hseed hlength (hcode _)

/-- Importing what another device has exported, with white space around it, installs the seed of
that device; importing any text installs the one seed that the text denotes or, as it
also may when the seed cannot be written, fails and changes nothing. -/
theorem importSyncCode_installs (pub : Bytes → Bytes) :
    (∀ (seed : ByteArr 32) (mem : IdentityPromise) (d : Device), HasSeed pub seed.val mem d →
      Gives pub exportSyncCode mem d fun code _ _ => ∀ (pre post : JsString) (mem' : IdentityPromise)
        (d' : Device), (∀ u ∈ pre, isSpace u = true) → (∀ u ∈ post, isSpace u = true) →
          Gives pub (importSyncCode (pre ++ code ++ post)) mem' d' fun _ mem'' d'' =>
            Installed pub seed.val mem'' d'') ∧
    (∀ (code : JsString) (mem : IdentityPromise) (d : Device),
      Meets (Serves pub true) (fun _ _ => True)
        (fun _ mem' d' => ∃ seed : ByteArr 32, Codes code seed.val ∧ Installed pub seed.val mem' d')
        (fun _ mem' d' => mem' = mem ∧ d' = d) (importSyncCode code) mem d) := by
  constructor
  · intro seed mem d h
    apply gives_of_ends
    apply ends_exportSyncCode seed.2 h
    intro _ pre post mem' d' hpre hpost
    apply gives_of_ends
    exact ends_importSyncCode (decodeSyncCode_digits seed hpre hpost) seed.2 (fun _ _ h => h) nofun
  · intro code mem d
    cases hcode : decodeSyncCode code with
    | ok seed =>
        obtain ⟨hlength, hcodes⟩ := decodeSyncCode_codes hcode
        refine ends_importSyncCode hcode hlength (fun mem' d' hinstalled => ?_) fun _ => ⟨rfl, rfl⟩
        exact ⟨⟨seed, hlength⟩, hcodes, hinstalled⟩
    | error e =>
        rw [importSyncCode, hcode, meets_bind, meets_ofExcept]
        refine ⟨nofun, fun _ _ => ⟨rfl, rfl⟩⟩

end Devices

end Tactile.Sync.SyncCode
