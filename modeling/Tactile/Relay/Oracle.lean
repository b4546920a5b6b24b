import Tactile.Relay.FsStore

/-!
What the relay's store is for: a map from owner and blob id to the record held,
with the results and the accounting of the store's calls.
-/

namespace Tactile.Relay.Oracle

open Tactile.Lib.FiniteMap Tactile.Lib.ByteString
open Tactile.Relay.Blob Tactile.Relay.Index Tactile.Relay.FsStore

/-- The owner and the id under which a record is held. -/
abbrev Key : Type := IdentityID × BlobID

abbrev Held : Type := Dict Key Record

variable (idOf : PubKey → IdentityID)

def keyOf (r : Record) : Key := (idOf r.identity, r.id)

/-- The records held, each under its own key. -/
structure Model where
  held : Held
  keyed : ∀ k r, held.lookup k = some r → k = keyOf idOf r

namespace Model

variable {idOf}

def empty : Model idOf := ⟨∅, fun _ _ h => by simp at h⟩

def insert (m : Model idOf) (r : Record) : Model idOf where
  held := m.held.insert (keyOf idOf r) r
  keyed := fun k r' h => by
    rw [lookup_insert_eq] at h
    split at h
    next hk =>
      cases h
      exact hk
    next => exact m.keyed k r' h

def erase (m : Model idOf) (k : Key) : Model idOf where
  held := m.held.erase k
  keyed := fun k' r h => by
    rw [lookup_erase_eq] at h
    split at h
    next => cases h
    next => exact m.keyed k' r h

def eraseAll (m : Model idOf) (ks : List Key) : Model idOf := ks.foldl erase m

/-- A record is stored unless one is held under its key, expired or not. -/
def put (m : Model idOf) (r : Record) : Except Err Unit × Model idOf :=
  if (m.held.lookup (keyOf idOf r)).isSome then (.error .exists, m) else (.ok (), m.insert r)

/-- A record is visible until its expiry; asking for an expired one drops it. -/
def get (m : Model idOf) (k : Key) (now : Int64) : Except Err Record × Model idOf :=
  match m.held.lookup k with
  | none => (.error .notFound, m)
  | some r => if r.expiresAt ≤ now then (.error .expired, m.erase k) else (.ok r, m)

/-- The bytes `[start, stop)` of a payload. -/
def payloadRange (payload : Bytes) (start stop : ℤ) : RangeResult :=
  let total : ℤ := payload.length
  if start < 0 ∨ start ≥ total ∨ stop ≤ start then ⟨[], total, some .badID⟩
  else ⟨(payload.drop start.toNat).take (min stop total - start).toNat, total, none⟩

def getRange (m : Model idOf) (k : Key) (start stop : ℤ) (now : Int64) :
    RangeResult × Model idOf :=
  match m.get k now with
  | (.error e, m') => (⟨[], 0, some e⟩, m')
  | (.ok r, m') => (payloadRange r.payload start stop, m')

def delete (m : Model idOf) (k : Key) : Except Err Unit × Model idOf :=
  if (m.held.lookup k).isSome then (.ok (), m.erase k) else (.error .notFound, m)

/-- What a listing says about a record. -/
def listMeta (r : Record) : ListMeta where
  id := r.id
  size := r.payload.length
  expiresAt := r.expiresAt
  sig := r.sig

/-- The unexpired records of an owner, by id. -/
def list (m : Model idOf) (owner : IdentityID) (now : Int64) : List ListMeta :=
  sortMetas <| ((pairs m.held).filter fun p => p.1.1 = owner ∧ ¬ p.2.expiresAt ≤ now).map
    fun p => listMeta p.2

def expiredKeys (m : Model idOf) (now : Int64) : List Key :=
  keysWhere m.held fun _ r => r.expiresAt ≤ now

/-- Drops every expired record and counts them. -/
def sweep (m : Model idOf) (now : Int64) : ℕ × Model idOf :=
  ((m.expiredKeys now).length, m.eraseAll (m.expiredKeys now))

end Model

/-- The byte sum and the count over the records held for an owner. -/
def usageOf (held : Held) (owner : IdentityID) : Usage where
  bytes := total held fun k r => if k.1 = owner then r.size else 0
  count := total held fun k _ => if k.1 = owner then 1 else 0

/-- The byte sum over all records held. -/
def totalBytesOf (held : Held) : ℤ := total held fun _ r => r.size

end Tactile.Relay.Oracle
