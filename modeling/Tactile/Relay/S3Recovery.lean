import Tactile.Relay.Ranges

/-!
Opening the object backend: the names of the objects give back the owners, the
ids and the expiries that they were stored under.
-/

namespace Tactile.Relay.S3Recovery

open Tactile.Lib.FiniteMap Tactile.Lib.ByteString
open Tactile.Relay.Blob Tactile.Relay.Index Tactile.Relay.Oracle Tactile.Relay.FsIndex
open Tactile.Relay.S3Store Tactile.Relay.S3Calls Tactile.Relay.Ranges

section Names

/-- `hexDecode` into an array of a fixed length. -/
def hexDecodeTo (n : ℕ) (s : List Char) : Option (ByteArr n) :=
  match hexDecode s with
  | none => none
  | some bs => if h : bs.length = n then some ⟨bs, h⟩ else none

def trimSuffix (suffix s : List Char) : List Char :=
  if suffix <:+ s then s.take (s.length - suffix.length) else s

/-- The parts of a text before and behind the last `-e`. -/
def cutLast : List Char → Option (List Char × List Char)
  | [] => none
  | c :: s =>
    match cutLast s with
    | some (before, after) => some (c :: before, after)
    | none => if c = '-' ∧ s.head? = some 'e' then some ([], s.drop 1) else none

/-- Decodes `<idHex>/<bidHex>-e<expiry>.blob`. -/
def parseS3Key (key : List Char) : Option (Key × Int64) :=
  match key.dropWhile (· ≠ '/') with
  | [] => none
  | _ :: rest =>
    match hexDecodeTo 32 (key.takeWhile (· ≠ '/')) with
    | none => none
    | some id =>
      match cutLast (trimSuffix ".blob".toList rest) with
      | none => none
      | some (name, expiry) =>
        match parseInt expiry with
        | none => none
        | some e =>
          match hexDecodeTo 32 name with
          | none => none
          | some bid => some ((id, bid), Int64.ofInt e)

theorem hexDecodeTo_hexEncode {n : ℕ} (bs : ByteArr n) :
    hexDecodeTo n (hexEncode bs.val).toList = some bs := by
  rw [hexDecodeTo, hexDecode_hexEncode]
  exact dif_pos bs.2

theorem notMem_hexEncode {bs : Bytes} {c : Char}
    (hc : ∀ n : Fin 16, c ≠ n.val.digitChar) : c ∉ (hexEncode bs).toList := by
  intro h
  obtain ⟨n, hn, heq⟩ := mem_hexEncode h
  exact hc ⟨n, hn⟩ heq

theorem trimSuffix_append (s suffix : List Char) : trimSuffix suffix (s ++ suffix) = s := by
  rw [trimSuffix, if_pos (List.suffix_append _ _), List.length_append, Nat.add_sub_cancel,
    List.take_left]

theorem cutLast_of_notMem {s : List Char} (h : 'e' ∉ s) : cutLast s = none := by
  induction s with
  | nil => rfl
  | cons c s ih =>
      have hhead : s.head? ≠ some 'e' := by
        intro hhead
        exact h (List.mem_cons_of_mem _ (List.mem_of_mem_head? hhead))
      rw [cutLast, ih fun hmem => h (List.mem_cons_of_mem _ hmem)]
      exact if_neg fun hc => hhead hc.2

theorem cutLast_append (before : List Char) {after : List Char} (h : 'e' ∉ after) :
    cutLast (before ++ '-' :: 'e' :: after) = some (before, after) := by
  induction before with
  | nil =>
      have hnone : cutLast ('e' :: after) = none := by
        rw [cutLast, cutLast_of_notMem h]
        exact if_neg fun hc => absurd hc.1 (by decide)
      rw [List.nil_append, cutLast, hnone]
      rfl
  | cons c before ih => rw [List.cons_append, cutLast, ih]

end Names

section Expiries

theorem isDigit_of_mem_toDigits {n : ℕ} {c : Char} (h : c ∈ Nat.toDigits 10 n) :
    c.isDigit = true :=
  Nat.isDigit_of_mem_toDigits (by decide) (by decide) h

/-- A number that fits 63 bits, as its digits. -/
def decimalOf (n : ℕ) (h : n < 2 ^ 63) : Decimal where
  text := Nat.toDigits 10 n
  nonempty := Nat.toDigits_ne_nil
  digits := fun _ hc => isDigit_of_mem_toDigits hc
  fits := by rw [decimalValue, Nat.ofDigitChars_ten_toDigits]; exact h

theorem parseInt_neg {n : ℕ} (h : n ≤ 2 ^ 63) :
    parseInt ('-' :: Nat.toDigits 10 n) = some (-n : ℤ) := by
  have hall : (Nat.toDigits 10 n).all Char.isDigit = true :=
    List.all_eq_true.mpr fun c hc => isDigit_of_mem_toDigits hc
  have hle : ((decimalValue (Nat.toDigits 10 n) : ℕ) : ℤ) ≤ 2 ^ 63 := by
    rw [decimalValue, Nat.ofDigitChars_ten_toDigits]
    exact_mod_cast h
  have hsign : ('-' :: Nat.toDigits 10 n).head? = some '-' := rfl
  change (if Nat.toDigits 10 n = [] ∨ !(Nat.toDigits 10 n).all Char.isDigit then none
    else if ('-' :: Nat.toDigits 10 n).head? = some '-' then
      if ((decimalValue (Nat.toDigits 10 n) : ℕ) : ℤ) ≤ 2 ^ 63 then
        some (-((decimalValue (Nat.toDigits 10 n) : ℕ) : ℤ))
      else none
    else _) = _
  rw [hall, if_neg (by simp [Nat.toDigits_ne_nil]), if_pos hsign, if_pos hle, decimalValue,
    Nat.ofDigitChars_ten_toDigits]

/-- An expiry is read back from its decimal text. -/
theorem parseInt_toString (e : Int64) : parseInt (toString e.toInt).toList = some e.toInt := by
  have hlow := e.le_toInt
  have hhigh := e.toInt_lt
  cases he : e.toInt with
  | ofNat n =>
      rw [he] at hhigh
      have hn : n < 2 ^ 63 := by
        rw [Int.ofNat_eq_natCast] at hhigh
        exact_mod_cast hhigh
      have htext := parseInt_text (decimalOf n hn)
      rw [Decimal.value, decimalValue, decimalOf, Nat.ofDigitChars_ten_toDigits] at htext
      exact (congrArg parseInt (toList_toString_natCast n)).trans htext
  | negSucc n =>
      rw [he] at hlow
      have hn : n + 1 ≤ 2 ^ 63 := by
        rw [Int.negSucc_eq] at hlow
        omega
      have htext : (toString (Int.negSucc n)).toList = '-' :: Nat.toDigits 10 (n + 1) := by
        change ("-" ++ Nat.repr (n + 1)).toList = _
        rw [String.toList_append, Nat.toList_repr]
        rfl
      rw [htext, parseInt_neg hn, Int.negSucc_eq]
      push_cast
      rfl

theorem e_notMem_toString (e : Int64) : 'e' ∉ (toString e.toInt).toList := by
  intro hmem
  cases he : e.toInt with
  | ofNat n =>
      rw [he] at hmem
      have hdigits : 'e' ∈ Nat.toDigits 10 n := by
        rw [← toList_toString_natCast n]
        exact hmem
      exact absurd (isDigit_of_mem_toDigits hdigits) (by decide)
  | negSucc n =>
      rw [he] at hmem
      change 'e' ∈ ("-" ++ Nat.repr (n + 1)).toList at hmem
      rw [String.toList_append, Nat.toList_repr, List.mem_append] at hmem
      rcases hmem with hmem | hmem
      · exact absurd hmem (by decide)
      · exact absurd (isDigit_of_mem_toDigits hmem) (by decide)

/-- The name of an object is read back. -/
theorem parseS3Key_objectKey (k : Key) (e : Int64) :
    parseS3Key (objectKey k e).toList = some (k, e) := by
  let owner := (hexEncode k.1.val).toList
  let name := (hexEncode k.2.val).toList
  let expiry := (toString e.toInt).toList
  have hkey : (objectKey k e).toList =
      owner ++ '/' :: ((name ++ '-' :: 'e' :: expiry) ++ ".blob".toList) := by
    simp only [objectKey, String.toList_append, List.append_assoc]
    rfl
  have howner : ∀ c ∈ owner, decide (c ≠ '/') = true := by
    intro c hc
    refine decide_eq_true fun hslash => ?_
    rw [hslash] at hc
    exact notMem_hexEncode (by decide) hc
  rw [parseS3Key, hkey, List.takeWhile_append_of_pos howner, List.dropWhile_append_of_pos howner,
    List.dropWhile_cons_of_neg (by simp), List.takeWhile_cons_of_neg (by simp), List.append_nil]
  dsimp only
  rw [hexDecodeTo_hexEncode]
  dsimp only
  rw [trimSuffix_append, cutLast_append _ (e_notMem_toString e)]
  dsimp only
  rw [parseInt_toString]
  dsimp only
  rw [hexDecodeTo_hexEncode, Int64.ofInt_toInt]

end Expiries

section Load

def zeroSig : Sig := ⟨List.replicate 64 0, length_zeros64⟩

/-- One object of the listing: its key and its size. The signature is not in the
key. -/
def loadObject (s : S3) (o : String × ℤ) : S3 :=
  match parseS3Key o.1.toList with
  | none => s
  | some ((id, bid), expiresAt) =>
    s.indexAdd id bid { key := o.1, expiresAt := expiresAt, size := o.2, sig := zeroSig }

/-- Rebuilds the index by listing the bucket. -/
def load (maxPayload : ℤ) (objs : List (String × ℤ)) : S3 :=
  objs.foldl loadObject ⟨maxPayload, .empty⟩

/-- The names and the sizes of the objects of a bucket. -/
def listing (bucket : Dict String Bytes) : List (String × ℤ) :=
  (pairs bucket).map fun o => (o.1, (o.2.length : ℤ))

theorem lawfulBEq_key : LawfulBEq Key := inferInstance

attribute [local instance] lawfulBEq_key in
/-- The index entry of a record: the signature is known for those put since the
index was built. -/
def entryFrom (put : List Key) (k : Key) (r : Record) : S3Entry where
  key := objectKey k r.expiresAt
  expiresAt := r.expiresAt
  size := r.size
  sig := if k ∈ put then r.sig else zeroSig

variable {idOf : PubKey → IdentityID} {maxPayload : ℤ} {m : Model idOf}

/-- The records whose objects are among those listed. -/
def loaded (m : Model idOf) (objs : List (String × ℤ)) : Held :=
  select m.held fun k r => decide (objectKey k r.expiresAt ∈ objs.map Prod.fst)

theorem load_tallies {objs : List (String × ℤ)}
    (hobjs : ∀ o ∈ objs, ∃ k r, m.held.lookup k = some r ∧ o = (objectKey k r.expiresAt, r.size))
    (hnodup : (objs.map Prod.fst).Nodup) :
    Tallies (entryFrom []) (load maxPayload objs).accounts (loaded m objs) := by
  induction objs using List.reverseRecOn with
  | nil =>
      have hnone : loaded m [] = ∅ := by
        refine eq_empty_of_lookup fun k => ?_
        rw [loaded, lookup_select]
        cases m.held.lookup k <;> rfl
      rw [hnone]
      exact Tallies.empty _
  | append_singleton objs o ih =>
      obtain ⟨k, r, hr, rfl⟩ := hobjs o (List.mem_append_right _ (List.mem_singleton_self _))
      rw [List.map_append, List.nodup_append] at hnodup
      have hnew : objectKey k r.expiresAt ∉ objs.map Prod.fst := fun hmem =>
        hnodup.2.2 _ hmem _ (List.mem_singleton_self _) rfl
      have hbefore := ih (fun o ho => hobjs o (List.mem_append_left _ ho)) hnodup.1
      have hfresh : (loaded m objs).lookup (k.1, k.2) = none := by
        rw [loaded, lookup_select, hr]
        exact if_neg (by simpa using hnew)
      have hload : (load maxPayload (objs ++ [(objectKey k r.expiresAt, r.size)])).accounts =
          (load maxPayload objs).accounts.add k.1 k.2 (entryFrom [] k r) r.size := by
        rw [load, List.foldl_append, List.foldl_cons, List.foldl_nil, loadObject,
          parseS3Key_objectKey]
        rfl
      rw [hload]
      refine (hbefore.add k.1 k.2 r hfresh).congr fun k' => ?_
      rw [lookup_insert_eq, loaded, loaded, lookup_select, lookup_select]
      split
      next hk =>
        rw [hk, hr]
        refine (if_pos (decide_eq_true ?_)).symm
        rw [List.map_append]
        exact List.mem_append_right _ (List.mem_singleton_self _)
      next hk =>
        cases hr' : m.held.lookup k' with
        | none => rfl
        | some r' =>
            have hkeys : objectKey k' r'.expiresAt ≠ objectKey k r.expiresAt :=
              fun h => hk (objectKey_inj h)
            have hmem : objectKey k' r'.expiresAt ∈ objs.map Prod.fst ↔
                objectKey k' r'.expiresAt ∈
                  (objs ++ [(objectKey k r.expiresAt, r.size)]).map Prod.fst := by
              rw [List.map_append, List.mem_append]
              simp [hkeys]
            exact congrArg (fun b : Bool => if b then some r' else none) (decide_eq_decide.mpr hmem)

end Load

end Tactile.Relay.S3Recovery
