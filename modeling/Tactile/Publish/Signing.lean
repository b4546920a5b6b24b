import Tactile.Lib.Text
import Tactile.Publish.Handlers

/-!
The byte strings that publish clients sign, and that none of them is a message of
two operations.
-/

namespace Tactile.Publish.Signing

open Tactile.Lib.ByteString Tactile.Lib.Text
open Tactile.Publish.Bundle Tactile.Publish.Handlers

section Messages

def domainSite : Bytes := ascii "tactile-publish/site/v1".toList

def domainDeploy : Bytes := ascii "tactile-publish/deploy/v1".toList

def domainDel : Bytes := ascii "tactile-publish/del/v1".toList

def domainREST : Bytes := ascii "tactile-publish/rest/v1".toList

/-- The bytes of a string. -/
def bytes (s : String) : Bytes := utf8 s.toList

def siteSigMessage (slug : String) (ts : ℤ) : Bytes :=
  domainSite ++ bytes slug ++ ascii (decimal ts)

def deploySigMessage (slug : String) (sum : ByteArr 32) (ts : ℤ) : Bytes :=
  domainDeploy ++ bytes slug ++ sum.val ++ ascii (decimal ts)

def delSigMessage (slug : String) (ts : ℤ) : Bytes :=
  domainDel ++ bytes slug ++ ascii (decimal ts)

def restSigMessage (method subject : String) (ts : ℤ) : Bytes :=
  domainREST ++ bytes method ++ bytes subject ++ ascii (decimal ts)

end Messages

section Operations

abbrev Slug : Type := { slug : String // Server.validSlug slug = true }

/-- A time in seconds that has ten digits. -/
abbrev Timestamp : Type := { ts : ℤ // 10 ^ 9 ≤ ts ∧ ts < 10 ^ 10 }

/-- The operations that are signed, with what they are signed for; the domains
are any strings, normalized or not. -/
inductive Signed
  | putSite (slug : Slug) (ts : Timestamp)
  | deploy (slug : Slug) (sum : ByteArr 32) (ts : Timestamp)
  | deleteSite (slug : Slug) (ts : Timestamp)
  | getSite (slug : Slug) (ts : Timestamp)
  | listSites (ts : Timestamp)
  | listDeploys (slug : Slug) (ts : Timestamp)
  | rollback (slug : Slug) (deployID : String) (ts : Timestamp)
  | usage (ts : Timestamp)
  | addDomain (slug : Slug) (domain : String) (ts : Timestamp)
  | verifyDomain (slug : Slug) (domain : String) (ts : Timestamp)
  | deleteDomain (slug : Slug) (domain : String) (ts : Timestamp)

/-- The message of a request, as its handler puts it together. -/
def Signed.message : Signed → Bytes
  | .putSite slug ts => siteSigMessage slug ts
  | .deploy slug sum ts => deploySigMessage slug sum ts
  | .deleteSite slug ts => delSigMessage slug ts
  | .getSite slug ts => restSigMessage "GETSITE" slug ts
  | .listSites ts => restSigMessage "LIST" "" ts
  | .listDeploys slug ts => restSigMessage "DEPLOYS" slug ts
  | .rollback slug deployID ts => restSigMessage "ROLLBACK" (slug ++ "|" ++ deployID) ts
  | .usage ts => restSigMessage "USAGE" "" ts
  | .addDomain slug domain ts => restSigMessage "DOMAIN" (slug ++ "|" ++ domain) ts
  | .verifyDomain slug domain ts => restSigMessage "DOMAIN_VERIFY" (slug ++ "|" ++ domain) ts
  | .deleteDomain slug domain ts => restSigMessage "DOMAIN_DEL" (slug ++ "|" ++ domain) ts

end Operations

section Slugs

theorem bytes_append (s t : String) : bytes (s ++ t) = bytes s ++ bytes t := by
  rw [bytes, String.toList_append]
  exact List.flatMap_append

theorem bytes_inj {s t : String} (h : bytes s = bytes t) : s = t :=
  String.toList_inj.mp (utf8_inj h)

theorem slug_char {c : Char}
    (h : (('a' ≤ c ∧ c ≤ 'z') ∨ ('0' ≤ c ∧ c ≤ '9')) ∨ c = '-') :
    c.toNat < 128 ∧ c ≠ '|' ∧ c ≠ '_' := by
  refine ⟨?_, ?_, ?_⟩
  · rcases h with (⟨-, h⟩ | ⟨-, h⟩) | rfl
    · exact Nat.lt_of_le_of_lt (UInt32.le_iff_toNat_le.mp h) (by decide)
    · exact Nat.lt_of_le_of_lt (UInt32.le_iff_toNat_le.mp h) (by decide)
    · decide
  · rintro rfl
    revert h
    decide
  · rintro rfl
    revert h
    decide

/-- A slug has a character, and all of its characters are plain. -/
theorem slug_chars (slug : Slug) :
    slug.val.toList ≠ [] ∧ ∀ c ∈ slug.val.toList, c.toNat < 128 ∧ c ≠ '|' ∧ c ≠ '_' := by
  obtain ⟨slug, hvalid⟩ := slug
  rw [Server.validSlug] at hvalid
  change slug.toList ≠ [] ∧ ∀ c ∈ slug.toList, c.toNat < 128 ∧ c ≠ '|' ∧ c ≠ '_'
  cases hcs : slug.toList with
  | nil =>
      rw [hcs] at hvalid
      cases hvalid
  | cons c cs =>
      rw [hcs] at hvalid
      simp only [decide_eq_true_eq, List.all_eq_true] at hvalid
      refine ⟨List.cons_ne_nil c cs, List.forall_mem_cons.mpr ⟨slug_char (.inl hvalid.1), ?_⟩⟩
      intro d hd
      exact slug_char (hvalid.2.2 d hd)

theorem bytes_slug (slug : Slug) : bytes slug = ascii slug.val.toList :=
  utf8_eq_ascii fun c hc => ((slug_chars slug).2 c hc).1

/-- Neither a bar nor a low line is a byte of a slug. -/
theorem mem_bytes_slug {slug : Slug} {b : UInt8} (h : b ∈ bytes slug) : b ≠ 124 ∧ b ≠ 95 := by
  rw [bytes_slug, ascii, List.mem_map] at h
  obtain ⟨c, hc, rfl⟩ := h
  obtain ⟨hlt, hbar, hlow⟩ := (slug_chars slug).2 c hc
  have hbyte : ∀ d : Char, d.toNat < 128 → UInt8.ofNat c.toNat = UInt8.ofNat d.toNat → c = d := by
    intro d hd heq
    have hnat := congrArg UInt8.toNat heq
    rw [UInt8.toNat_ofNat', UInt8.toNat_ofNat'] at hnat
    rw [← Char.ofNat_toNat c, ← Char.ofNat_toNat d]
    congr 1
    omega
  exact ⟨fun heq => hbar (hbyte '|' (by decide) heq), fun heq => hlow (hbyte '_' (by decide) heq)⟩

/-- What stands behind a slug and a bar has only one place. -/
theorem bytes_slug_bar_inj {slug slug' : Slug} {subject subject' : String}
    (h : bytes (slug ++ "|" ++ subject) = bytes (slug' ++ "|" ++ subject')) :
    slug = slug' ∧ subject = subject' := by
  have hbar : ∀ s : Slug, (124 : UInt8) ∉ bytes s := fun s hs => (mem_bytes_slug hs).1 rfl
  simp only [bytes_append, List.append_assoc] at h
  change bytes slug ++ 124 :: bytes subject = bytes slug' ++ 124 :: bytes subject' at h
  have hlen := congrArg (List.idxOf 124) h
  rw [List.idxOf_append_of_notMem (hbar slug), List.idxOf_append_of_notMem (hbar slug'),
    List.idxOf_cons_self, List.idxOf_cons_self] at hlen
  obtain ⟨hslug, hsubject⟩ := List.append_inj h hlen
  exact ⟨Subtype.ext (bytes_inj hslug), bytes_inj (List.cons.inj hsubject).2⟩

end Slugs

section Kinds

/-- An operation without its arguments. -/
inductive Kind
  | putSite
  | deploy
  | deleteSite
  | getSite
  | listSites
  | listDeploys
  | rollback
  | usage
  | addDomain
  | verifyDomain
  | deleteDomain
  deriving DecidableEq

def Signed.kind : Signed → Kind
  | .putSite .. => .putSite
  | .deploy .. => .deploy
  | .deleteSite .. => .deleteSite
  | .getSite .. => .getSite
  | .listSites .. => .listSites
  | .listDeploys .. => .listDeploys
  | .rollback .. => .rollback
  | .usage .. => .usage
  | .addDomain .. => .addDomain
  | .verifyDomain .. => .verifyDomain
  | .deleteDomain .. => .deleteDomain

/-- The kind of a message, by the bytes in which the domains and the methods differ;
behind the method that the others extend there is a byte of the slug. -/
def kindOf (message : Bytes) : Kind :=
  if message[16]? = some 115 then .putSite
  else if message[16]? = some 100 then
    if message[18]? = some 112 then .deploy else .deleteSite
  else if message[23]? = some 71 then .getSite
  else if message[23]? = some 76 then .listSites
  else if message[23]? = some 82 then .rollback
  else if message[23]? = some 85 then .usage
  else if message[24]? = some 69 then .listDeploys
  else if message[29]? ≠ some 95 then .addDomain
  else if message[30]? = some 86 then .verifyDomain
  else .deleteDomain

theorem kindOf_message (s : Signed) : kindOf s.message = s.kind := by
  cases s with
  | addDomain slug domain ts =>
      obtain ⟨b, rest, hslug⟩ : ∃ b rest, bytes slug = b :: rest := by
        rw [bytes_slug]
        exact List.exists_cons_of_ne_nil (mt List.map_eq_nil_iff.mp (slug_chars slug).1)
      have hb : b ≠ 95 := (mem_bytes_slug (hslug ▸ List.mem_cons_self)).2
      have hmessage : (Signed.addDomain slug domain ts).message = domainREST ++ bytes "DOMAIN" ++
          (b :: (rest ++ bytes "|" ++ bytes domain ++ ascii (decimal ts))) := by
        simp only [Signed.message, restSigMessage, bytes_append, hslug, List.append_assoc,
          List.cons_append]
      rw [hmessage]
      change (if some b ≠ some 95 then Kind.addDomain else _) = Kind.addDomain
      rw [if_pos (mt Option.some.inj hb)]
  | _ => rfl

theorem kind_of_message {s t : Signed} (h : s.message = t.message) : s.kind = t.kind := by
  rw [← kindOf_message, ← kindOf_message, h]

end Kinds

section Fields

theorem length_timestamp (ts : Timestamp) : (ascii (decimal ts)).length = 10 := by
  rw [length_ascii]
  exact length_decimal ts.2.1 ts.2.2

/-- The time is the last ten bytes. -/
theorem timestamp_inj {xs ys : Bytes} {ts ts' : Timestamp}
    (h : xs ++ ascii (decimal ts) = ys ++ ascii (decimal ts')) : xs = ys ∧ ts = ts' := by
  obtain ⟨hxs, hts⟩ := List.append_inj' h
    ((length_timestamp ts).trans (length_timestamp ts').symm)
  exact ⟨hxs, Subtype.ext (ascii_decimal_inj hts)⟩

theorem siteSigMessage_inj {slug slug' : String} {ts ts' : Timestamp}
    (h : siteSigMessage slug ts = siteSigMessage slug' ts') : slug = slug' ∧ ts = ts' := by
  obtain ⟨hslug, hts⟩ := timestamp_inj h
  exact ⟨bytes_inj (List.append_cancel_left hslug), hts⟩

theorem delSigMessage_inj {slug slug' : String} {ts ts' : Timestamp}
    (h : delSigMessage slug ts = delSigMessage slug' ts') : slug = slug' ∧ ts = ts' := by
  obtain ⟨hslug, hts⟩ := timestamp_inj h
  exact ⟨bytes_inj (List.append_cancel_left hslug), hts⟩

/-- The digest is the 32 bytes before the time. -/
theorem deploySigMessage_inj {slug slug' : String} {sum sum' : ByteArr 32} {ts ts' : Timestamp}
    (h : deploySigMessage slug sum ts = deploySigMessage slug' sum' ts') :
    slug = slug' ∧ sum = sum' ∧ ts = ts' := by
  obtain ⟨hsum, hts⟩ := timestamp_inj h
  obtain ⟨hslug, hsum⟩ := List.append_inj' hsum (sum.2.trans sum'.2.symm)
  exact ⟨bytes_inj (List.append_cancel_left hslug), Subtype.ext hsum, hts⟩

/-- Within one method. -/
theorem restSigMessage_inj {method subject subject' : String} {ts ts' : Timestamp}
    (h : restSigMessage method subject ts = restSigMessage method subject' ts') :
    subject = subject' ∧ ts = ts' := by
  obtain ⟨hsubject, hts⟩ := timestamp_inj h
  exact ⟨bytes_inj (List.append_cancel_left hsubject), hts⟩

theorem restSigMessage_bar_inj {method subject subject' : String} {slug slug' : Slug}
    {ts ts' : Timestamp} (h : restSigMessage method (slug ++ "|" ++ subject) ts =
      restSigMessage method (slug' ++ "|" ++ subject') ts') :
    slug = slug' ∧ subject = subject' ∧ ts = ts' := by
  obtain ⟨hsubject, hts⟩ := restSigMessage_inj h
  obtain ⟨hslug, hsubject⟩ := bytes_slug_bar_inj (congrArg bytes hsubject)
  exact ⟨hslug, hsubject, hts⟩

end Fields

/-- A signed byte string is the message of one operation, with one choice of
arguments and one time. -/
theorem message_injective : Function.Injective Signed.message := by
  intro s t h
  have hkind := kind_of_message h
  cases s with
  | putSite slug ts =>
      cases t with
      | putSite slug' ts' =>
          obtain ⟨hslug, rfl⟩ := siteSigMessage_inj h
          rw [Subtype.ext hslug]
      | _ => cases hkind
  | deploy slug sum ts =>
      cases t with
      | deploy slug' sum' ts' =>
          obtain ⟨hslug, rfl, rfl⟩ := deploySigMessage_inj h
          rw [Subtype.ext hslug]
      | _ => cases hkind
  | deleteSite slug ts =>
      cases t with
      | deleteSite slug' ts' =>
          obtain ⟨hslug, rfl⟩ := delSigMessage_inj h
          rw [Subtype.ext hslug]
      | _ => cases hkind
  | getSite slug ts =>
      cases t with
      | getSite slug' ts' =>
          obtain ⟨hslug, rfl⟩ := restSigMessage_inj h
          rw [Subtype.ext hslug]
      | _ => cases hkind
  | listSites ts =>
      cases t with
      | listSites ts' =>
          obtain ⟨-, rfl⟩ := restSigMessage_inj h
          rfl
      | _ => cases hkind
  | listDeploys slug ts =>
      cases t with
      | listDeploys slug' ts' =>
          obtain ⟨hslug, rfl⟩ := restSigMessage_inj h
          rw [Subtype.ext hslug]
      | _ => cases hkind
  | rollback slug deployID ts =>
      cases t with
      | rollback slug' deployID' ts' =>
          obtain ⟨rfl, rfl, rfl⟩ := restSigMessage_bar_inj h
          rfl
      | _ => cases hkind
  | usage ts =>
      cases t with
      | usage ts' =>
          obtain ⟨-, rfl⟩ := restSigMessage_inj h
          rfl
      | _ => cases hkind
  | addDomain slug domain ts =>
      cases t with
      | addDomain slug' domain' ts' =>
          obtain ⟨rfl, rfl, rfl⟩ := restSigMessage_bar_inj h
          rfl
      | _ => cases hkind
  | verifyDomain slug domain ts =>
      cases t with
      | verifyDomain slug' domain' ts' =>
          obtain ⟨rfl, rfl, rfl⟩ := restSigMessage_bar_inj h
          rfl
      | _ => cases hkind
  | deleteDomain slug domain ts =>
      cases t with
      | deleteDomain slug' domain' ts' =>
          obtain ⟨rfl, rfl, rfl⟩ := restSigMessage_bar_inj h
          rfl
      | _ => cases hkind

end Tactile.Publish.Signing
