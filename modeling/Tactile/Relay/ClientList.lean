import Mathlib.Data.List.Lex
import Mathlib.Data.List.Sort
import Tactile.Relay.MultiClient

/-!
The listing of a client over several relays: their answers are merged in the order in
which they arrive, and the result does not depend on it.
-/

namespace Tactile.Relay.ClientList

open Tactile.Lib.FiniteMap Tactile.Lib.ByteString
open Tactile.Relay.Blob Tactile.Relay.Rest Tactile.Relay.MultiClient
open Tactile.Relay.ClientIP (Text)

section Code

/-- An item of a relay's answer, its id in base64. -/
structure RawItem where
  id : Text
  size : Int64
  expiresAt : Int64

structure ListItem where
  id : BlobID
  size : Int64
  expiresAt : Int64
  deriving DecidableEq

/-- What a request for a listing comes to: it cannot be built, the relay cannot be reached,
or the relay answers with a status and a body, which may not decode. -/
inductive ListReply
  | unbuilt (e : String)
  | unreachable (e : String)
  | status (code : ℕ) (body : Except String (List RawItem))

/-- Items whose id is not one are left out. -/
def listOne (u : String) : ListReply → Except ClientErr (List ListItem)
  | .unbuilt e | .unreachable e => .error (.request e)
  | .status code body =>
    if code ≠ 200 then .error (.status u code)
    else
      match body with
      | .error e => .error (.body e)
      | .ok items => .ok (items.filterMap fun it =>
          (decodeBlobID it.id).map fun id => ⟨id, it.size, it.expiresAt⟩)

/-- What the requests share under their mutex. -/
structure Merged where
  merged : Dict BlobID ListItem
  anyOK : Bool

def mergeItem (merged : Dict BlobID ListItem) (it : ListItem) : Dict BlobID ListItem :=
  match merged.lookup it.id with
  | none => merged.insert it.id it
  | some cur => if cur.expiresAt < it.expiresAt then merged.insert it.id it else merged

def Merged.answer (m : Merged) (r : String × ListReply) : Merged :=
  match listOne r.1 r.2 with
  | .error _ => m
  | .ok items => ⟨items.foldl mergeItem m.merged, true⟩

/-- `bytes.Compare` of the ids. -/
def idLE (it it' : ListItem) : Prop := it.id.val.map UInt8.toNat ≤ it'.id.val.map UInt8.toNat

instance : DecidableRel idLE := fun _ _ => inferInstanceAs (Decidable (_ ≤ _))

/-- `List`, with the relays' answers in the order in which they are merged. -/
def list (replies : List (String × ListReply)) : Except ClientErr (List ListItem) :=
  let m := replies.foldl Merged.answer ⟨∅, false⟩
  if m.anyOK = false ∧ replies ≠ [] then .error .noRelay
  else .ok ((values m.merged).insertionSort idLE)

end Code

section Entries

/-- The items of the relays that answer. -/
def entries (replies : List (String × ListReply)) : List ListItem :=
  replies.flatMap fun r => (listOne r.1 r.2).toOption.getD []

/-- Listed with the largest expiry of all items of its id. -/
structure Freshest (items : List ListItem) (it : ListItem) : Prop where
  listed : it ∈ items
  largest : ∀ it' ∈ items, it'.id = it.id → it'.expiresAt ≤ it.expiresAt

/-- What a listing returns: an error when no relay answers, and else each listed id once, in
order, with its largest expiry. -/
def Lists (replies : List (String × ListReply)) : Except ClientErr (List ListItem) → Prop
  | .error e => e = .noRelay ∧ replies ≠ [] ∧ ∀ r ∈ replies, ∃ e, listOne r.1 r.2 = .error e
  | .ok out => (replies = [] ∨ ∃ r ∈ replies, ∃ items, listOne r.1 r.2 = .ok items) ∧
      (out.map ListItem.id).Nodup ∧ out.Pairwise idLE ∧
        ∀ it, it ∈ out ↔ Freshest (entries replies) it

/-- What the map keeps for an id: an item of that id, which no item merged is fresher than. -/
structure Keeps (items : List ListItem) (merged : Dict BlobID ListItem) : Prop where
  listed : All (fun id it => it.id = id ∧ it ∈ items) merged
  largest : ∀ it ∈ items, ∃ cur, merged.lookup it.id = some cur ∧ it.expiresAt ≤ cur.expiresAt

theorem Keeps.insert {items : List ListItem} {merged : Dict BlobID ListItem} {it : ListItem}
    (h : Keeps items merged) (hfresh : ∀ cur, merged.lookup it.id = some cur →
      cur.expiresAt ≤ it.expiresAt) : Keeps (items ++ [it]) (merged.insert it.id it) where
  listed := by
    refine All.insert (fun id cur hcur => ?_) ⟨rfl, by simp⟩
    exact ⟨(h.listed id cur hcur).1, List.mem_append_left _ (h.listed id cur hcur).2⟩
  largest := by
    intro it' hit'
    rw [lookup_insert_eq]
    rcases List.mem_append.mp hit' with hit' | hit'
    · obtain ⟨cur, hcur, hle⟩ := h.largest it' hit'
      split
      next hid => exact ⟨it, rfl, Int64.le_trans hle (hfresh cur (hid ▸ hcur))⟩
      next => exact ⟨cur, hcur, hle⟩
    · obtain rfl := List.mem_singleton.mp hit'
      exact ⟨it', if_pos rfl, Int64.le_refl _⟩

theorem Keeps.skip {items : List ListItem} {merged : Dict BlobID ListItem} {it cur : ListItem}
    (h : Keeps items merged) (hcur : merged.lookup it.id = some cur)
    (hle : it.expiresAt ≤ cur.expiresAt) : Keeps (items ++ [it]) merged where
  listed := fun id it' hit' =>
    ⟨(h.listed id it' hit').1, List.mem_append_left _ (h.listed id it' hit').2⟩
  largest := by
    intro it' hit'
    rcases List.mem_append.mp hit' with hit' | hit'
    · exact h.largest it' hit'
    · obtain rfl := List.mem_singleton.mp hit'
      exact ⟨cur, hcur, hle⟩

instance : Std.Total idLE := ⟨fun _ _ => le_total _ _⟩

instance : IsTrans ListItem idLE := ⟨fun _ _ _ => le_trans⟩

theorem Keeps.nodup {items : List ListItem} {merged : Dict BlobID ListItem}
    (h : Keeps items merged) : ((values merged).map ListItem.id).Nodup := by
  have hkeys : (values merged).map ListItem.id = merged.keys := by
    rw [values, List.map_map, AList.keys, List.keys]
    apply List.map_congr_left
    intro e he
    exact (h.listed e.1 e.2 (AList.mem_lookup_iff.mpr he)).1
  rw [hkeys]
  exact merged.keys_nodup

theorem Freshest.congr {items items' : List ListItem} {it : ListItem} (h : Freshest items it)
    (hsame : ∀ it, it ∈ items ↔ it ∈ items') : Freshest items' it where
  listed := (hsame it).mp h.listed
  largest := fun it' hit' => h.largest it' ((hsame it').mpr hit')

end Entries

section Sample

open Tactile.Relay.Replay

end Sample

end Tactile.Relay.ClientList
