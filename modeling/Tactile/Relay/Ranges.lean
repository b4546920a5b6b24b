import Tactile.Relay.S3Calls

/-!
Range requests to the relay: the parser of the header, the answer over a
backend, and exactly when it is the slice that the header asks for.
-/

namespace Tactile.Relay.Ranges

open Tactile.Lib.Program Tactile.Lib.Script Tactile.Lib.FiniteMap Tactile.Lib.ByteString
open Tactile.Relay.Blob Tactile.Relay.FileSystem Tactile.Relay.Index Tactile.Relay.FsStore
open Tactile.Relay.Oracle
open Tactile.Relay.FsIndex Tactile.Relay.FsFiles Tactile.Relay.FsMethods

section Parser

def decimalValue (digits : List Char) : ℕ := Nat.ofDigitChars 10 digits 0

/-- `strconv.ParseInt` in base 10 and 64 bits. -/
def parseInt (s : List Char) : Option ℤ :=
  let unsigned := match s with
    | '+' :: digits | '-' :: digits => digits
    | digits => digits
  if unsigned = [] ∨ !unsigned.all Char.isDigit then none
  else
    let n : ℤ := decimalValue unsigned
    if s.head? = some '-' then if n ≤ 2 ^ 63 then some (-n) else none
    else if n < 2 ^ 63 then some n else none

/-- The 64-bit sum. -/
def add64 (a b : ℤ) : ℤ := (Int64.ofInt (a + b)).toInt

/-- The start and the end of a range; a negative start is minus the length of a
suffix. -/
def parseRange (h : List Char) : Option (ℤ × ℤ) :=
  let unit := "bytes=".toList
  if ¬ unit <+: h ∨ ',' ∈ h then none
  else
    let spec := h.drop unit.length
    match spec.dropWhile (· ≠ '-') with
    | [] => none
    | _ :: b =>
      let a := spec.takeWhile (· ≠ '-')
      if a = [] then
        match parseInt b with
        | none => none
        | some n => if n ≤ 0 then none else some (-n, 0)
      else
        match parseInt a with
        | none => none
        | some start =>
          if start < 0 then none
          else if b = [] then some (start, 2 ^ 62)
          else
            match parseInt b with
            | none => none
            | some stop => if stop < start then none else some (start, add64 stop 1)

end Parser

section Handler

/-- The answers: 206 with its Content-Range, 416 with the one it has, and that
of `writeStoreGetErr`. -/
inductive RangeResponse
  | partialContent (contentRange : String) (payload : Bytes)
  | rangeNotSatisfiable (contentRange : Option String) (message : String)
  | storeError (e : Err)
  deriving DecidableEq

def unsatisfied (total : ℤ) : RangeResponse :=
  .rangeNotSatisfiable (some ("bytes */" ++ toString total)) "range out of bounds"

def contentRange (start stop total : ℤ) : String :=
  "bytes " ++ toString start ++ "-" ++ toString stop ++ "/" ++ toString total

/-- The answer to a range that has been read. -/
def respond (start : ℤ) (found : RangeResult) : RangeResponse :=
  match found.err with
  | some .badID => unsatisfied found.total
  | some e => .storeError e
  | none =>
    .partialContent (contentRange start (start + found.payload.length - 1) found.total)
      found.payload

/-- Answers a raw GET that carries a Range header; `now` and `later` are the
times of its calls. -/
def serveRange {M : Type → Type} [Monad M] (getRange : ℤ → ℤ → Int64 → M RangeResult)
    (now later : Int64) (header : List Char) : M RangeResponse :=
  match parseRange header with
  | none => pure (.rangeNotSatisfiable none "bad range")
  | some (start, stop) =>
    if start < 0 then do
      -- A suffix: the total comes from a probe.
      let probe ← getRange 0 0 now
      match probe.err with
      | some .badID => pure (unsatisfied probe.total)
      | some e => pure (.storeError e)
      | none => do
        let start := max (probe.total + start) 0
        let found ← getRange start probe.total later
        pure (respond start found)
    else do
      let found ← getRange start stop now
      pure (respond start found)

end Handler

section Headers

/-- Decimal digits of a value that fits 63 bits. -/
structure Decimal where
  text : List Char
  nonempty : text ≠ []
  digits : ∀ c ∈ text, c.isDigit = true
  fits : decimalValue text < 2 ^ 63

def Decimal.value (d : Decimal) : ℕ := decimalValue d.text

/-- The well-formed single ranges. -/
inductive RangeHeader
  | closed (a b : Decimal) (h : a.value ≤ b.value)
  | openEnded (a : Decimal)
  | suffix (k : Decimal) (h : 0 < k.value)

def RangeHeader.text : RangeHeader → List Char
  | .closed a b _ => "bytes=".toList ++ (a.text ++ '-' :: b.text)
  | .openEnded a => "bytes=".toList ++ (a.text ++ ['-'])
  | .suffix k _ => "bytes=".toList ++ '-' :: k.text

/-- The offset and the bytes that a header denotes in a payload. -/
def RangeHeader.denotes (payload : Bytes) : RangeHeader → ℕ × Bytes
  | .closed a b _ => (a.value, (payload.drop a.value).take (b.value + 1 - a.value))
  | .openEnded a => (a.value, payload.drop a.value)
  | .suffix k _ => (payload.length - k.value, payload.drop (payload.length - k.value))

/-- The answer with some bytes of a payload: 416 where there are none. -/
def sliceResponse (payload : Bytes) (first : ℕ) (bytes : Bytes) : RangeResponse :=
  if bytes = [] then unsatisfied payload.length
  else .partialContent (contentRange first (first + bytes.length - 1) payload.length) bytes

/-- The answer that a header asks for. -/
def RangeHeader.expected (h : RangeHeader) (payload : Bytes) : RangeResponse :=
  sliceResponse payload (h.denotes payload).1 (h.denotes payload).2

/-- The range has no suffix form, its end can be incremented in 64 bits, and an
open end lies past the payload; else it denotes nothing. -/
def RangeHeader.Served (n : ℕ) : RangeHeader → Prop
  | .closed a b _ => b.value ≠ 2 ^ 63 - 1 ∨ n ≤ a.value
  | .openEnded a => n ≤ 2 ^ 62 ∨ n ≤ a.value
  | .suffix .. => n = 0

end Headers

section Parsing

theorem Decimal.notMem (d : Decimal) {c : Char} (hc : c.isDigit = false) : c ∉ d.text := by
  intro hmem
  rw [d.digits c hmem] at hc
  cases hc

theorem parseInt_text (d : Decimal) : parseInt d.text = some (d.value : ℤ) := by
  have hplus : '+' ∉ d.text := d.notMem rfl
  have hminus : '-' ∉ d.text := d.notMem rfl
  have hall : d.text.all Char.isDigit = true := List.all_eq_true.mpr d.digits
  have hfits : (d.value : ℤ) < 2 ^ 63 := by exact_mod_cast d.fits
  have hne := d.nonempty
  unfold Decimal.value at hfits ⊢
  generalize d.text = s at *
  cases s with
  | nil => exact absurd rfl hne
  | cons c cs =>
      have hc : c ≠ '+' := fun h => hplus (h ▸ List.mem_cons_self)
      have hc' : c ≠ '-' := fun h => hminus (h ▸ List.mem_cons_self)
      have hhead : (c :: cs).head? ≠ some '-' := fun h => hc' (Option.some.inj h)
      unfold parseInt
      split
      next h => exact absurd (List.cons.inj h).1 hc
      next h => exact absurd (List.cons.inj h).1 hc'
      next =>
        dsimp only
        rw [hall, if_neg (by simp), if_neg hhead, if_pos hfits]

theorem takeWhile_text (d : Decimal) (rest : List Char) :
    (d.text ++ '-' :: rest).takeWhile (· ≠ '-') = d.text := by
  rw [List.takeWhile_append_of_pos]
  · simp
  · intro c hc
    exact decide_eq_true fun h => d.notMem rfl (h ▸ hc)

theorem dropWhile_text (d : Decimal) (rest : List Char) :
    (d.text ++ '-' :: rest).dropWhile (· ≠ '-') = '-' :: rest := by
  rw [List.dropWhile_append_of_pos]
  · simp
  · intro c hc
    exact decide_eq_true fun h => d.notMem rfl (h ▸ hc)

theorem parseRange_unit {spec : List Char} (hspec : ',' ∉ spec) :
    parseRange ("bytes=".toList ++ spec) =
      match spec.dropWhile (· ≠ '-') with
      | [] => none
      | _ :: b =>
        let a := spec.takeWhile (· ≠ '-')
        if a = [] then
          match parseInt b with
          | none => none
          | some n => if n ≤ 0 then none else some (-n, 0)
        else
          match parseInt a with
          | none => none
          | some start =>
            if start < 0 then none
            else if b = [] then some (start, 2 ^ 62)
            else
              match parseInt b with
              | none => none
              | some stop => if stop < start then none else some (start, add64 stop 1) := by
  have hcomma : ',' ∉ "bytes=".toList ++ spec := by
    rw [List.mem_append]
    rintro (h | h)
    · exact absurd h (by decide)
    · exact hspec h
  unfold parseRange
  dsimp only
  rw [if_neg (by rw [not_or, not_not]; exact ⟨List.prefix_append _ _, hcomma⟩), List.drop_left]

/-- What the parser makes of a well-formed header. -/
def RangeHeader.parsed : RangeHeader → ℤ × ℤ
  | .closed a b _ => (a.value, add64 b.value 1)
  | .openEnded a => (a.value, 2 ^ 62)
  | .suffix k _ => (-k.value, 0)

theorem parseRange_text (h : RangeHeader) : parseRange h.text = some h.parsed := by
  cases h with
  | closed a b hle =>
      have hcomma : ',' ∉ a.text ++ '-' :: b.text := by
        simp [a.notMem (c := ',') rfl, b.notMem (c := ',') rfl]
      have hlt : ¬ (b.value : ℤ) < a.value := Int.not_lt.mpr (by exact_mod_cast hle)
      have hstart : ¬ (a.value : ℤ) < 0 := Int.not_lt.mpr (Int.natCast_nonneg _)
      change parseRange ("bytes=".toList ++ (a.text ++ '-' :: b.text)) = _
      rw [parseRange_unit hcomma, dropWhile_text, takeWhile_text]
      dsimp only
      rw [if_neg a.nonempty, parseInt_text]
      dsimp only
      rw [if_neg hstart, if_neg b.nonempty, parseInt_text]
      dsimp only
      rw [if_neg hlt]
      rfl
  | openEnded a =>
      have hcomma : ',' ∉ a.text ++ ['-'] := by simp [a.notMem (c := ',') rfl]
      have hstart : ¬ (a.value : ℤ) < 0 := Int.not_lt.mpr (Int.natCast_nonneg _)
      change parseRange ("bytes=".toList ++ (a.text ++ ['-'])) = _
      rw [parseRange_unit hcomma, dropWhile_text, takeWhile_text]
      dsimp only
      rw [if_neg a.nonempty, parseInt_text]
      dsimp only
      rw [if_neg hstart, if_pos rfl]
      rfl
  | suffix k hpos =>
      have hcomma : ',' ∉ '-' :: k.text := by simp [k.notMem (c := ',') rfl]
      have hlt : ¬ (k.value : ℤ) ≤ 0 := by omega
      change parseRange ("bytes=".toList ++ '-' :: k.text) = _
      rw [parseRange_unit hcomma]
      rw [List.dropWhile_cons_of_neg (by simp), List.takeWhile_cons_of_neg (by simp)]
      dsimp only
      rw [if_pos rfl, parseInt_text]
      dsimp only
      rw [if_neg hlt]
      rfl

end Parsing

section Answers

/-- The answer over a backend that returns the ranges of a payload. -/
def answerOf (payload : Bytes) (p : ℤ × ℤ) : RangeResponse :=
  if p.1 < 0 then unsatisfied payload.length
  else respond p.1 (Model.payloadRange payload p.1 p.2)

/-- The range that a backend returns is the slice. -/
theorem respond_payloadRange (payload : Bytes) (first : ℕ) (stop : ℤ) :
    respond first (Model.payloadRange payload first stop) =
      sliceResponse payload first ((payload.drop first).take (stop - first).toNat) := by
  unfold Model.payloadRange sliceResponse
  dsimp only
  split
  next hbad =>
    rw [if_pos]
    · rfl
    · rw [List.take_eq_nil_iff, List.drop_eq_nil_iff]
      omega
  next hgood =>
    have hlength : ((payload.drop first).take (stop - first).toNat) =
        (payload.drop first).take (min stop payload.length - first).toNat := by
      rw [List.take_eq_take_iff, List.length_drop]
      omega
    have hne : (payload.drop first).take (min stop payload.length - first).toNat ≠ [] := by
      rw [Ne, List.take_eq_nil_iff, List.drop_eq_nil_iff]
      omega
    rw [hlength, if_neg hne]
    rfl

theorem sliceResponse_nil (payload : Bytes) (first : ℕ) :
    sliceResponse payload first [] = unsatisfied payload.length := rfl

theorem sliceResponse_inj {payload : Bytes} {first : ℕ} {bytes bytes' : Bytes}
    (h : sliceResponse payload first bytes = sliceResponse payload first bytes') :
    bytes = bytes' := by
  unfold sliceResponse at h
  split at h
  next hnil =>
    split at h
    next hnil' => rw [hnil, hnil']
    next => cases h
  next =>
    split at h
    next => cases h
    next =>
      injection h

theorem toList_toString_natCast (n : ℕ) : (toString (n : ℤ)).toList = Nat.toDigits 10 n :=
  Nat.toList_repr

/-- The digits behind the last slash determine the number. -/
theorem eq_of_slash_toDigits {xs ys : List Char} {m n : ℕ}
    (h : xs ++ '/' :: Nat.toDigits 10 m = ys ++ '/' :: Nat.toDigits 10 n) : m = n := by
  have hlast : ∀ (xs : List Char) (n : ℕ),
      (xs ++ '/' :: Nat.toDigits 10 n).reverse.takeWhile (· ≠ '/') =
        (Nat.toDigits 10 n).reverse := by
    intro xs n
    have hdigits : ∀ c ∈ (Nat.toDigits 10 n).reverse, decide (c ≠ '/') = true := by
      intro c hc
      have hdigit := Nat.isDigit_of_mem_toDigits (by decide) (by decide) (List.mem_reverse.mp hc)
      refine decide_eq_true fun hslash => ?_
      rw [hslash] at hdigit
      cases hdigit
    rw [List.reverse_append, List.reverse_cons, List.append_assoc,
      List.takeWhile_append_of_pos hdigits]
    simp
  have hdigits : (Nat.toDigits 10 m).reverse = (Nat.toDigits 10 n).reverse := by
    rw [← hlast xs, ← hlast ys, h]
  rw [← Nat.ofDigitChars_ten_toDigits (n := m), List.reverse_injective hdigits,
    Nat.ofDigitChars_ten_toDigits]

/-- An answer states the length of the payload. -/
theorem length_of_sliceResponse {payload payload' : Bytes} {first first' : ℕ} {bytes bytes' : Bytes}
    (h : sliceResponse payload first bytes = sliceResponse payload' first' bytes') :
    payload.length = payload'.length := by
  have htotal : ∀ {xs ys : String} {m n : ℕ},
      xs ++ "/" ++ toString (m : ℤ) = ys ++ "/" ++ toString (n : ℤ) → m = n := by
    intro xs ys m n hsame
    have hlists := congrArg String.toList hsame
    simp only [String.toList_append, toList_toString_natCast, List.append_assoc] at hlists
    exact eq_of_slash_toDigits hlists
  unfold sliceResponse at h
  split at h
  next =>
    split at h
    next =>
      have hrange := RangeResponse.rangeNotSatisfiable.inj h
      have htexts : "bytes *" ++ "/" ++ toString (payload.length : ℤ) =
          "bytes *" ++ "/" ++ toString (payload'.length : ℤ) := Option.some.inj hrange.1
      exact htotal htexts
    next => cases h
  next =>
    split at h
    next => cases h
    next => exact htotal (RangeResponse.partialContent.inj h).1

theorem add64_of_lt {n : ℕ} (h : n < 2 ^ 63 - 1) : add64 n 1 = n + 1 := by
  have hsize : Int64.size = 2 ^ 64 := rfl
  unfold add64
  rw [Int64.toInt_ofInt, hsize]
  apply Int.bmod_eq_of_le <;> omega

theorem add64_max : add64 ((2 ^ 63 - 1 : ℕ) : ℤ) 1 = -2 ^ 63 := by decide

/-- The bytes that are answered. -/
theorem answerOf_slice (payload : Bytes) (h : RangeHeader) :
    answerOf payload h.parsed = sliceResponse payload (h.denotes payload).1 (match h with
      | .closed a b _ => (payload.drop a.value).take (add64 b.value 1 - a.value).toNat
      | .openEnded a => (payload.drop a.value).take ((2 : ℤ) ^ 62 - a.value).toNat
      | .suffix .. => []) := by
  unfold answerOf RangeHeader.parsed
  cases h with
  | closed a b _ =>
      dsimp only
      rw [if_neg (Int.not_lt.mpr (Int.natCast_nonneg _)), respond_payloadRange]
      rfl
  | openEnded a =>
      dsimp only
      rw [if_neg (Int.not_lt.mpr (Int.natCast_nonneg _)), respond_payloadRange]
      rfl
  | suffix k hpos =>
      have hstart : -(k.value : ℤ) < 0 := by omega
      exact if_pos hstart

/-- The answer is the one asked for exactly when the range is served. -/
theorem answerOf_iff (payload : Bytes) (h : RangeHeader) :
    answerOf payload h.parsed = h.expected payload ↔ h.Served payload.length := by
  rw [answerOf_slice, RangeHeader.expected]
  cases h with
  | closed a b hle =>
      unfold RangeHeader.Served RangeHeader.denotes
      dsimp only
      by_cases hmax : b.value = 2 ^ 63 - 1
      · have hstop : (add64 b.value 1 - a.value).toNat = 0 := by
          rw [hmax, add64_max]
          omega
        rw [hstop, List.take_zero]
        constructor
        · intro hsame
          have hnil := (sliceResponse_inj hsame).symm
          rw [List.take_eq_nil_iff, List.drop_eq_nil_iff] at hnil
          omega
        · intro hserved
          rw [List.drop_eq_nil_of_le (by omega), List.take_nil]
      · have hb := b.fits
        have hstop : (add64 b.value 1 - a.value).toNat = b.value + 1 - a.value := by
          unfold Decimal.value at hmax ⊢
          rw [add64_of_lt (by omega)]
          omega
        rw [hstop]
        exact ⟨fun _ => .inl hmax, fun _ => rfl⟩
  | openEnded a =>
      unfold RangeHeader.Served RangeHeader.denotes
      dsimp only
      constructor
      · intro hsame
        have hall := congrArg List.length (sliceResponse_inj hsame)
        rw [List.length_take, List.length_drop] at hall
        omega
      · intro hserved
        rw [List.take_of_length_le]
        rw [List.length_drop]
        omega
  | suffix k hpos =>
      unfold RangeHeader.Served RangeHeader.denotes
      dsimp only
      constructor
      · intro hsame
        have hnil := (sliceResponse_inj hsame).symm
        rw [List.drop_eq_nil_iff] at hnil
        omega
      · intro hempty
        rw [List.drop_eq_nil_of_le (by omega)]

end Answers

section Backends

variable (idOf : PubKey → IdentityID)

/-- The answer over the file-system backend. -/
def fsServe (pub : PubKey) (bid : BlobID) (now later : Int64) (header : List Char) :
    FsMethod RangeResponse :=
  serveRange (fun start stop now => FsStore.getRange idOf pub bid start stop now) now later header

/-- The answer over the object backend. -/
def s3Serve (pub : PubKey) (bid : BlobID) (now later : Int64) (header : List Char) :
    S3Calls.ObjProg RangeResponse :=
  serveRange (fun start stop now => S3Calls.getRange idOf pub bid start stop now) now later header

/-- The index and the disk have a record under a key. -/
structure FsHas (s : FS) (d : Disk) (k : Key) (r : Record) : Prop where
  entry : s.entry k.1 k.2 = some (entryOf r)
  file : d.files.lookup (blobPath k.1 k.2) = some (marshal r)

/-- The index and the bucket have a record under a key; the signature of the
entry may be another. -/
def S3Has (w : S3Store.World) (k : Key) (r : Record) : Prop :=
  ∃ e, w.mem.accounts.entry k.1 k.2 = some e ∧ e.expiresAt = r.expiresAt ∧ e.size = r.size ∧
    w.bucket.lookup e.key = some (marshal r)

variable {idOf}

/-- A probe for the total of a payload is out of its bounds. -/
theorem payloadRange_probe (payload : Bytes) :
    Model.payloadRange payload 0 0 = ⟨[], payload.length, some .badID⟩ := by
  unfold Model.payloadRange
  dsimp only
  rw [if_pos (.inr (.inr (Int.le_refl 0)))]

/-- What an answer rests on is the range of the payload, whatever the monad. -/
theorem serveRange_answers {M : Type → Type} [Monad M] {getRange : ℤ → ℤ → Int64 → M RangeResult}
    {now later : Int64} {h : RangeHeader} {payload : Bytes}
    {A : M RangeResponse → RangeResponse → Prop}
    (hget : ∀ start stop (f : RangeResult → M RangeResponse) res,
      A (f (Model.payloadRange payload start stop)) res → A (getRange start stop now >>= f) res)
    (hpure : ∀ res, A (pure res) res) :
    A (serveRange getRange now later h.text) (answerOf payload h.parsed) := by
  unfold serveRange answerOf
  rw [parseRange_text]
  dsimp only
  split
  · refine hget 0 0 _ _ ?_
    rw [payloadRange_probe]
    exact hpure _
  · exact hget _ _ _ _ (hpure _)

section FileSystem

variable {s : FS} {d : Disk} {pub : PubKey} {bid : BlobID} {r : Record} {now : Int64}

/-- The part of a payload that a file gives back. -/
def stored (payload : Bytes) : Bytes := payload.take (payload.length % 2 ^ 32)

/-- An open store has the records that it holds. -/
theorem Refines.has {maxPayload : ℤ} {m : Model idOf} (h : Refines idOf maxPayload s d m) {k : Key}
    (hr : m.held.lookup k = some r) : FsHas s d k r where
  entry := h.entry_some hr
  file := h.stores.present k r hr

theorem openBlob_live (hhas : FsHas s d (idOf pub, bid) r) (hlive : ¬ r.expiresAt ≤ now) :
    Meets Serves (fun _ _ => True) (fun file s' d' => file = marshal r ∧ s' = s ∧ d' = d)
      (fun _ _ _ => False) (openBlob (idOf pub) bid now) s d := by
  have hexpired : ¬ (entryOf r).expiresAt ≤ now := hlive
  rw [openBlob, meets_bind, meets_read]
  simp only [hhas.entry, hexpired, if_false]
  rw [meets_bind]
  refine ⟨trivial, fun ans d' hserves => ?_⟩
  have hfile := hhas.file
  cases hserves with
  | readFile _ _ data hdata =>
      rw [hfile] at hdata
      cases hdata
      exact ⟨rfl, rfl, rfl⟩
  | readMissing _ _ hmissing =>
      rw [hfile] at hmissing
      cases hmissing

/-- The file-system backend answers with the ranges of what it has stored. -/
theorem fsServe_meets (later : Int64) (h : RangeHeader) (hhas : FsHas s d (idOf pub, bid) r)
    (hlive : ¬ r.expiresAt ≤ now) :
    Meets Serves (fun _ _ => True) (fun res _ _ => res = answerOf (stored r.payload) h.parsed)
      (fun _ _ _ => False) (fsServe idOf pub bid now later h.text) s d := by
  let A : FsMethod RangeResponse → RangeResponse → Prop := fun p res =>
    Meets Serves (fun _ _ => True) (fun a _ _ => a = res) (fun _ _ _ => False) p s d
  have hget : ∀ start stop (f : RangeResult → FsMethod RangeResponse) res,
      A (f (Model.payloadRange (stored r.payload) start stop)) res →
      A (FsStore.getRange idOf pub bid start stop now >>= f) res := by
    intro start stop f res hf
    change Meets _ _ _ _ _ _ _
    rw [meets_bind, FsStore.getRange, meets_bind, meets_outcome]
    refine (openBlob_live hhas hlive).imp (fun file s' d' hfile => ?_) fun _ _ _ hno => hno.elim
    obtain ⟨rfl, rfl, rfl⟩ := hfile
    rw [meets_pure, readRange_marshal]
    exact hf
  exact serveRange_answers (A := A) hget fun _ => rfl

end FileSystem

section Objects

variable {w : S3Store.World} {pub : PubKey} {bid : BlobID} {r : Record} {now : Int64}

/-- A range of the object of a record is that range of the payload. -/
theorem sliceOf_marshal (r : Record) {start : ℤ} (hstart : 0 ≤ start) (stop : ℤ) :
    S3Calls.sliceOf (marshal r) (some (headerSize + start, headerSize + stop - 1)) =
      (r.payload.drop start.toNat).take (stop - start).toNat := by
  have hfirst : ((headerSize : ℤ) + start).toNat = headerSize + start.toNat := by omega
  have hlength : ((headerSize : ℤ) + stop - 1 - (headerSize + start) + 1).toNat =
      (stop - start).toNat := by omega
  unfold S3Calls.sliceOf
  dsimp only
  rw [hfirst, hlength, ← List.drop_drop, marshal, ← length_header r, List.drop_left]

theorem s3GetRange_holds (hhas : S3Has w (idOf pub, bid) r) (hlive : ¬ r.expiresAt ≤ now)
    (start stop : ℤ) :
    Holds S3Calls.Serves (fun _ _ => True)
      (fun res w' => res = Model.payloadRange r.payload start stop ∧ w' = w)
      (S3Calls.getRange idOf pub bid start stop now) w := by
  obtain ⟨e, hentry, hexpires, hsize, hbody⟩ := hhas
  have htotal : e.size - headerSize = r.payload.length := by
    rw [hsize, Record.size]
    omega
  rw [← hexpires] at hlive
  rw [S3Calls.getRange, S3Calls.lookup, holds_bind, holds_bind]
  refine ⟨trivial, fun ans w' hserves => ?_⟩
  cases hserves
  rw [hentry]
  change Holds _ _ _ (if e.expiresAt ≤ now then _ else _) w
  rw [if_neg hlive]
  change Holds _ _ _ (if _ then _ else _) w
  unfold Model.payloadRange
  dsimp only
  rw [htotal]
  split
  next => exact ⟨rfl, rfl⟩
  next hrange =>
    refine ⟨trivial, fun ans w' hserves => ?_⟩
    cases hserves
    rw [hbody, Option.map_some, sliceOf_marshal r (by omega)]
    exact ⟨rfl, rfl⟩

/-- The object backend answers with the ranges of the payload. -/
theorem s3Serve_holds (later : Int64) (h : RangeHeader) (hhas : S3Has w (idOf pub, bid) r)
    (hlive : ¬ r.expiresAt ≤ now) :
    Holds S3Calls.Serves (fun _ _ => True) (fun res _ => res = answerOf r.payload h.parsed)
      (s3Serve idOf pub bid now later h.text) w := by
  let A : S3Calls.ObjProg RangeResponse → RangeResponse → Prop := fun p res =>
    Holds S3Calls.Serves (fun _ _ => True) (fun a _ => a = res) p w
  have hget : ∀ start stop (f : RangeResult → S3Calls.ObjProg RangeResponse) res,
      A (f (Model.payloadRange r.payload start stop)) res →
      A (S3Calls.getRange idOf pub bid start stop now >>= f) res := by
    intro start stop f res hf
    change Holds _ _ _ _ _
    rw [holds_bind]
    refine (s3GetRange_holds hhas hlive start stop).imp fun found w' hfound => ?_
    obtain ⟨rfl, rfl⟩ := hfound
    exact hf
  exact serveRange_answers (A := A) hget fun _ => rfl

theorem s3Serves_total (w : S3Store.World) (o : S3Calls.ObjOp) :
    ∃ ans w', S3Calls.Serves w o ans w' := by
  cases o with
  | part o =>
      cases o with
      | check id bid size identityCap totalCap =>
          exact ⟨_, _, .part (.check w id bid size identityCap totalCap) trivial⟩
      | putObject key body => exact ⟨_, _, .part (.putObject w key body) rfl⟩
      | indexAdd id bid e => exact ⟨_, _, .part (.indexAdd w id bid e) trivial⟩
  | readEntry id bid => exact ⟨_, _, .readEntry w id bid⟩
  | getObject key range => exact ⟨_, _, .getObject w key range⟩
  | deleteObject key => exact ⟨_, _, .deleteObject w key⟩
  | indexDrop id bid size => exact ⟨_, _, .indexDrop w id bid size⟩
  | expired now => exact ⟨_, _, .expired w now _ (List.Perm.refl _)⟩

end Objects

end Backends

section Exactness

/-- When every run has one answer, every run has a given one iff it is that. -/
theorem forall_exec_iff {Op : Type} {Ans : Op → Type} {σ α β : Type} {R : Answers Op Ans σ}
    {p : Prog Op Ans α} {s : σ} {f : α → β} {a : β}
    (h : Holds R (fun _ _ => True) (fun x _ => f x = a) p s)
    (htotal : ∀ s o, ∃ ans s', R s o ans s') (b : β) :
    (∀ x t, Exec R s p x t → f x = b) ↔ a = b := by
  constructor
  · intro hall
    obtain ⟨x, t, hexec, hx⟩ := h.exists_exec fun s o _ => htotal s o
    rw [← hx]
    exact hall x t hexec
  · intro hab x t hexec
    rw [← hab]
    exact h.exec hexec

theorem answerOf_stored_iff (payload : Bytes) (h : RangeHeader) :
    answerOf (stored payload) h.parsed = h.expected payload ↔
      h.Served payload.length ∧ payload.length < 2 ^ 32 := by
  have hlength : (stored payload).length = payload.length % 2 ^ 32 := by
    rw [stored, List.length_take, Nat.min_eq_left (Nat.mod_le _ _)]
  have hwhole : payload.length < 2 ^ 32 → stored payload = payload := by
    intro hlt
    rw [stored, Nat.mod_eq_of_lt hlt, List.take_length]
  constructor
  · intro hsame
    have hlt : payload.length < 2 ^ 32 := by
      have htotal := length_of_sliceResponse ((answerOf_slice _ h).symm.trans hsame)
      rw [hlength] at htotal
      omega
    rw [hwhole hlt] at hsame
    exact ⟨(answerOf_iff payload h).mp hsame, hlt⟩
  · rintro ⟨hserved, hlt⟩
    rw [hwhole hlt]
    exact (answerOf_iff payload h).mpr hserved

/-- A live record is answered with the slice that the header denotes exactly for
the headers that are served and, from a file, for a payload whose length fits 32
bits. -/
theorem serveRange_exact (idOf : PubKey → IdentityID) (r : Record) (now later : Int64)
    (h : RangeHeader) (hlive : ¬ r.expiresAt ≤ now) :
    (∀ s d, FsHas s d (keyOf idOf r) r →
      ((∀ out d', Exec Serves d
          ((fsServe idOf r.identity r.id now later h.text).call s) out d' →
        out.1 = .ok (h.expected r.payload)) ↔
        h.Served r.payload.length ∧ r.payload.length < 2 ^ 32)) ∧
    (∀ w, S3Has w (keyOf idOf r) r →
      ((∀ res w', Exec S3Calls.Serves w
          (s3Serve idOf r.identity r.id now later h.text) res w' →
        res = h.expected r.payload) ↔ h.Served r.payload.length)) := by
  constructor
  · intro s d hhas
    have hmeets := fsServe_meets later h hhas hlive
    have hanswers : Holds Serves (fun _ _ => True)
        (fun out _ => out.1 = .ok (answerOf (stored r.payload) h.parsed))
        ((fsServe idOf r.identity r.id now later h.text).call s) d := by
      refine Holds.imp hmeets fun out d' hout => ?_
      rcases out with ⟨res | res, s'⟩
      · exact hout.elim
      · exact congrArg Except.ok hout
    refine (forall_exec_iff hanswers serves_total _).trans ?_
    rw [Except.ok.injEq]
    exact answerOf_stored_iff r.payload h
  · intro w hhas
    refine (forall_exec_iff (f := fun res => res) (s3Serve_holds later h hhas hlive)
      s3Serves_total _).trans ?_
    exact answerOf_iff r.payload h

/-- A store with one record, and its disk. -/
def oneFs (r : Record) : FS := (FS.fresh 64).indexAdd (zeroDigest r.identity) r.id (entryOf r)

def oneDisk (r : Record) : Disk :=
  ⟨[], AList.insert (blobPath (zeroDigest r.identity) r.id) (marshal r) ∅⟩

theorem oneFs_has (r : Record) : FsHas (oneFs r) (oneDisk r) (keyOf zeroDigest r) r where
  entry := by
    rw [FS.entry, oneFs, FS.indexAdd, Accounts.entry_add]
    exact if_pos ⟨rfl, rfl⟩
  file := AList.lookup_insert _

/-- A bucket with the object of one record, and its index. -/
def oneBucket (r : Record) : S3Store.World :=
  let e := S3Calls.entryOf zeroDigest r
  ⟨S3Store.S3.indexAdd (zeroDigest r.identity) r.id e ⟨64, .empty⟩,
    AList.insert e.key (marshal r) ∅⟩

theorem oneBucket_has (r : Record) : S3Has (oneBucket r) (keyOf zeroDigest r) r := by
  refine ⟨S3Calls.entryOf zeroDigest r, ?_, rfl, rfl, AList.lookup_insert _⟩
  rw [oneBucket, S3Store.S3.indexAdd, Accounts.entry_add]
  exact if_pos ⟨rfl, rfl⟩

/-- The header `bytes=0-`. -/
def fromStart : RangeHeader := .openEnded ⟨['0'], by decide, by simp, by decide⟩

/-- The header `bytes=-1`. -/
def lastByte : RangeHeader := .suffix ⟨['1'], by decide, by simp, by decide⟩ (by decide)

theorem serveRange_exact_fromStart :
    (∀ out d', Exec Serves (oneDisk (zeroRecord [7, 8]))
        ((fsServe zeroDigest zeroKey (zeroRecord []).id 0 0 fromStart.text).call
          (oneFs (zeroRecord [7, 8]))) out d' →
      out.1 = .ok (.partialContent "bytes 0-1/2" [7, 8])) ∧
    (∀ res w', Exec S3Calls.Serves (oneBucket (zeroRecord [7, 8]))
        (s3Serve zeroDigest zeroKey (zeroRecord []).id 0 0 fromStart.text) res w' →
      res = .partialContent "bytes 0-1/2" [7, 8]) := by
  have hexpected : fromStart.expected [7, 8] = .partialContent "bytes 0-1/2" [7, 8] := by decide
  have hserved : fromStart.Served 2 := .inl (by decide)
  have h := serveRange_exact zeroDigest (zeroRecord [7, 8]) 0 0 fromStart (by decide)
  refine ⟨?_, ?_⟩
  · rw [← hexpected]
    exact (h.1 _ _ (oneFs_has _)).mpr ⟨hserved, by decide⟩
  · rw [← hexpected]
    exact (h.2 _ (oneBucket_has _)).mpr hserved

/-- The last byte of a payload of two bytes is answered with 416. -/
theorem lastByte_unsatisfied :
    lastByte.text = "bytes=-1".toList ∧
    lastByte.expected [7, 8] = .partialContent "bytes 1-1/2" [8] ∧
    (∃ out d', Exec Serves (oneDisk (zeroRecord [7, 8]))
        ((fsServe zeroDigest zeroKey (zeroRecord []).id 0 0 "bytes=-1".toList).call
          (oneFs (zeroRecord [7, 8]))) out d' ∧
      out.1 = .ok (.rangeNotSatisfiable (some "bytes */2") "range out of bounds")) ∧
    (∃ res w', Exec S3Calls.Serves (oneBucket (zeroRecord [7, 8]))
        (s3Serve zeroDigest zeroKey (zeroRecord []).id 0 0 "bytes=-1".toList) res w' ∧
      res = .rangeNotSatisfiable (some "bytes */2") "range out of bounds") := by
  have htext : lastByte.text = "bytes=-1".toList := by decide
  have hlive : ¬ (zeroRecord [7, 8]).expiresAt ≤ 0 := by decide
  refine ⟨htext, by decide, ?_, ?_⟩
  · obtain ⟨out, d', hexec, hout⟩ :=
      Holds.exists_exec (fsServe_meets 0 lastByte (oneFs_has (zeroRecord [7, 8])) hlive)
        fun s o _ => serves_total s o
    refine ⟨out, d', htext ▸ hexec, ?_⟩
    rcases out with ⟨res | res, s'⟩
    · exact hout.elim
    · have hanswer : answerOf (stored [7, 8]) lastByte.parsed = unsatisfied 2 := by decide
      exact congrArg Except.ok (hout.trans hanswer)
  · obtain ⟨res, w', hexec, hres⟩ :=
      Holds.exists_exec (s3Serve_holds 0 lastByte (oneBucket_has (zeroRecord [7, 8])) hlive)
        fun s o _ => s3Serves_total s o
    refine ⟨res, w', htext ▸ hexec, ?_⟩
    rw [hres]
    decide

end Exactness

end Tactile.Relay.Ranges
