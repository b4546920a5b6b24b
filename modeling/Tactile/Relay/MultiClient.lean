import Tactile.Relay.Replay

/-!
The client that writes to several relays: when a put reports its quorum, and when
a delete that reports success has removed the blob.
-/

namespace Tactile.Relay.MultiClient

open Tactile.Lib.Program Tactile.Lib.FiniteMap Tactile.Lib.Transition Tactile.Lib.ByteString
open Tactile.Relay.Blob Tactile.Relay.Oracle Tactile.Relay.Rest Tactile.Relay.Replay

section Code

/-- What a request to a relay comes to: it cannot be built, the relay cannot be
reached, or the relay answers with a status. -/
inductive Reply
  | unbuilt (e : String)
  | unreachable (e : String)
  | status (code : ℕ)
  deriving DecidableEq

/-- The errors of the client: its own two, `errExists`, those of a request and of
a body, and that of a status. -/
inductive ClientErr
  | noRelay
  | notFound
  | alreadyStored
  | request (e : String)
  | body (e : String)
  | status (relay : String) (code : ℕ)
  deriving DecidableEq

def putOne (u : String) : Reply → Except ClientErr Unit
  | .unbuilt e | .unreachable e => .error (.request e)
  | .status code =>
    if code = 201 ∨ code = 200 then .ok ()
    else if code = 409 then .error .alreadyStored
    else .error (.status u code)

/-- What stops the client. -/
inductive Panic
  | closeOfClosedChannel
  deriving DecidableEq

/-- What the writes of a put share under its mutex; `done` tells whether the
channel has been closed. -/
structure Tally where
  succeeded : ℕ
  failed : ℕ
  firstErr : Option ClientErr
  done : Bool
  deriving DecidableEq

def Tally.start : Tally := ⟨0, 0, none, false⟩

/-- The outcome of one write. -/
def Tally.count (t : Tally) (res : Except ClientErr Unit) : Tally :=
  match res with
  | .ok () | .error .alreadyStored => { t with succeeded := t.succeeded + 1 }
  | .error e => { t with failed := t.failed + 1, firstErr := t.firstErr.or (some e) }

/-- A close of the channel, which panics when it is closed already. -/
def closeDone (t : Tally) : Except Panic Tally :=
  if t.done then .error .closeOfClosedChannel else .ok { t with done := true }

/-- What one write does when it completes: its outcome, and the close of the
channel unless a select finds it closed. -/
def complete (quorum : ℤ) (relays : ℕ) (t : Tally) (res : Except ClientErr Unit) :
    Except Panic Tally :=
  let t := t.count res
  if (t.succeeded : ℤ) ≥ quorum ∨ t.succeeded + t.failed = relays then
    if t.done then .ok t else closeDone t
  else .ok t

/-- A quorum of zero or less is one. -/
def atLeastOne (quorum : ℤ) : ℤ := if quorum ≤ 0 then 1 else quorum

/-- `Client.Put` over the replies of the relays in the order in which the writes
complete; the time that each write takes changes only the order of later ones. -/
def put (quorum : ℤ) (replies : List (String × Reply)) :
    Except Panic (Except ClientErr Unit) := do
  let t ← replies.foldlM (fun t r => complete (atLeastOne quorum) replies.length t (putOne r.1 r.2))
    Tally.start
  if (t.succeeded : ℤ) ≥ atLeastOne quorum then return .ok ()
  match t.firstErr with
  | some e => return .error e
  | none => return .error .noRelay

/-- The answer to a get, with the payload that its body decodes to. -/
inductive GetReply
  | failed (e : String)
  | answer (code : ℕ) (payload : Except String Bytes)

def getOne (u : String) : GetReply → Except ClientErr Bytes
  | .failed e => .error (.request e)
  | .answer code payload =>
    if code = 404 ∨ code = 410 then .error .notFound
    else if code ≠ 200 then .error (.status u code)
    else payload.mapError .body

def getFrom (lastErr : ClientErr) : List (String × GetReply) → Except ClientErr Bytes
  | [] => .error lastErr
  | (u, reply) :: rest =>
    match getOne u reply with
    | .ok payload => .ok payload
    | .error .notFound => getFrom lastErr rest
    | .error e => getFrom e rest

/-- `Client.Get` over the relays in their order. -/
def get (replies : List (String × GetReply)) : Except ClientErr Bytes := getFrom .notFound replies

/-- One relay of a delete. -/
def deleteOne (anyOK : Bool) (lastErr : Option ClientErr) (u : String) :
    Reply → Bool × Option ClientErr
  | .unbuilt _ => (anyOK, lastErr)
  | .unreachable e => (anyOK, some (.request e))
  | .status code =>
    if code = 204 ∨ code = 200 then (true, lastErr)
    else if code ≠ 404 then (anyOK, some (.status u code))
    else (true, lastErr)

/-- `Client.Delete` over the relays in their order; `none` is its success. -/
def delete (replies : List (String × Reply)) : Option ClientErr :=
  let (anyOK, lastErr) :=
    replies.foldl (fun acc r => deleteOne acc.1 acc.2 r.1 r.2) (false, none)
  if anyOK then none
  else
    match lastErr with
    | some e => some e
    | none => some .noRelay

end Code

section Quorum

/-- A write has landed: it is stored, or was before. -/
def Landed (r : String × Reply) : Prop :=
  putOne r.1 r.2 = .ok () ∨ putOne r.1 r.2 = .error .alreadyStored

instance (r : String × Reply) : Decidable (Landed r) := inferInstanceAs (Decidable (_ ∨ _))

def landed (replies : List (String × Reply)) : ℕ := replies.countP fun r => Landed r

/-- The error of a write that has not landed. -/
def failure (r : String × Reply) : Option ClientErr :=
  match putOne r.1 r.2 with
  | .ok () | .error .alreadyStored => none
  | .error e => some e

/-- A put does not panic, reports success exactly when enough writes have landed,
and else returns the error of a relay. -/
def Faithful (quorum : ℤ) (replies : List (String × Reply)) : Prop :=
  ∃ res, put quorum replies = .ok res ∧
    (res = .ok () ↔ min (atLeastOne quorum) replies.length ≤ landed replies) ∧
    ∀ e, res = .error e → ∃ r ∈ replies, putOne r.1 r.2 = .error e

theorem count_of_landed {r : String × Reply} (h : Landed r) (t : Tally) :
    t.count (putOne r.1 r.2) = { t with succeeded := t.succeeded + 1 } := by
  rcases h with h | h
  · rw [h]
    rfl
  · rw [h]
    rfl

theorem failure_of_not_landed {r : String × Reply} (h : ¬ Landed r) :
    ∃ e, putOne r.1 r.2 = .error e ∧ failure r = some e ∧ ∀ t : Tally,
      t.count (putOne r.1 r.2) =
        { t with failed := t.failed + 1, firstErr := t.firstErr.or (some e) } := by
  unfold failure
  cases hres : putOne r.1 r.2 with
  | ok u => exact absurd (.inl hres) h
  | error e =>
      cases e with
      | alreadyStored => exact absurd (.inr hres) h
      | _ => exact ⟨_, rfl, rfl, fun _ => rfl⟩

theorem failure_of_landed {r : String × Reply} (h : Landed r) : failure r = none := by
  unfold failure
  rcases h with h | h
  · rw [h]
  · rw [h]

/-- A completed write never closes a closed channel. -/
theorem complete_ok (quorum : ℤ) (relays : ℕ) (t : Tally) (res : Except ClientErr Unit) :
    ∃ done, complete quorum relays t res = .ok { t.count res with done := done } := by
  unfold complete closeDone
  dsimp only
  split
  next =>
    split
    next hdone => exact ⟨(t.count res).done, rfl⟩
    next hopen => exact ⟨true, rfl⟩
  next => exact ⟨(t.count res).done, rfl⟩

/-- In whatever order the writes complete, the tally counts the ones that have
landed and keeps the first error. -/
theorem foldlM_complete (quorum : ℤ) (relays : ℕ) (replies : List (String × Reply)) (t : Tally) :
    ∃ done, replies.foldlM (fun t r => complete quorum relays t (putOne r.1 r.2)) t =
      .ok ⟨t.succeeded + landed replies, t.failed + (replies.length - landed replies),
        t.firstErr.or (replies.findSome? failure), done⟩ := by
  induction replies generalizing t with
  | nil => exact ⟨t.done, by simp [landed, pure, Except.pure]⟩
  | cons r replies ih =>
      obtain ⟨done, hstep⟩ := complete_ok quorum relays t (putOne r.1 r.2)
      obtain ⟨done', hrest⟩ := ih { t.count (putOne r.1 r.2) with done := done }
      have hle : landed replies ≤ replies.length := List.countP_le_length
      refine ⟨done', ?_⟩
      rw [List.foldlM_cons, hstep]
      change replies.foldlM _ _ = _
      rw [hrest]
      by_cases hr : Landed r
      · have hlanded : landed (r :: replies) = landed replies + 1 :=
          List.countP_cons_of_pos (decide_eq_true hr)
        rw [count_of_landed hr, hlanded, List.findSome?_cons_of_isNone (by
          rw [failure_of_landed hr]; rfl), List.length_cons]
        congr 2
        · dsimp only
          omega
        · dsimp only
          omega
      · have hlanded : landed (r :: replies) = landed replies :=
          List.countP_cons_of_neg fun h => hr (of_decide_eq_true h)
        obtain ⟨e, -, hfailure, hcount⟩ := failure_of_not_landed hr
        rw [hcount, hlanded, List.findSome?_cons, hfailure, List.length_cons]
        congr 2
        · dsimp only
          omega
        · cases t.firstErr <;> rfl

/-- What a put returns, from the outcomes of its writes. -/
theorem put_eq (quorum : ℤ) (replies : List (String × Reply)) :
    put quorum replies = .ok (if (landed replies : ℤ) ≥ atLeastOne quorum then .ok ()
      else .error ((replies.findSome? failure).getD .noRelay)) := by
  obtain ⟨done, hfold⟩ :=
    foldlM_complete (atLeastOne quorum) replies.length replies Tally.start
  unfold put
  rw [hfold]
  change (if ((0 + landed replies : ℕ) : ℤ) ≥ atLeastOne quorum then _ else _) = _
  rw [Nat.zero_add]
  split
  next => rfl
  next =>
    change (match replies.findSome? failure with
      | some e => _
      | none => _) = _
    cases replies.findSome? failure <;> rfl

theorem landed_lt_iff {replies : List (String × Reply)} :
    landed replies < replies.length ↔ ∃ r ∈ replies, ¬ Landed r := by
  have hle : landed replies ≤ replies.length := List.countP_le_length
  have hall : landed replies = replies.length ↔ ∀ r ∈ replies, Landed r := by
    rw [landed, List.countP_eq_length]
    exact forall₂_congr fun _ _ => decide_eq_true_iff
  constructor
  · intro hlt
    by_contra hnone
    push Not at hnone
    have := hall.mpr hnone
    omega
  · rintro ⟨r, hr, hnot⟩
    by_contra hge
    exact hnot (hall.mp (by omega) r hr)

/-- The first error is one that a write has returned. -/
theorem exists_of_failure {replies : List (String × Reply)} (h : ∃ r ∈ replies, ¬ Landed r) :
    ∃ e, replies.findSome? failure = some e ∧ ∃ r ∈ replies, putOne r.1 r.2 = .error e := by
  obtain ⟨r, hr, hnot⟩ := h
  obtain ⟨e, -, hfailure, -⟩ := failure_of_not_landed hnot
  cases hfound : replies.findSome? failure with
  | none =>
      rw [List.findSome?_eq_none_iff.mp hfound r hr] at hfailure
      cases hfailure
  | some e' =>
      obtain ⟨r', hr', hfailure'⟩ := List.exists_of_findSome?_eq_some hfound
      have hnot' : ¬ Landed r' := fun h => by
        rw [failure_of_landed h] at hfailure'
        cases hfailure'
      obtain ⟨e'', herror, hsome, -⟩ := failure_of_not_landed hnot'
      rw [hfailure'] at hsome
      cases hsome
      exact ⟨e', rfl, r', hr', herror⟩

/-- In every order in which the writes complete, a put does what it says exactly
when there are as many relays as the quorum asks for, or one of them fails. -/
theorem put_faithful_iff (quorum : ℤ) {relays order : List (String × Reply)} (hne : relays ≠ [])
    (horder : order.Perm relays) :
    Faithful quorum order ↔
      atLeastOne quorum ≤ relays.length ∨ ∃ r ∈ relays, ¬ Landed r := by
  have hmem : (∃ r ∈ relays, ¬ Landed r) ↔ ∃ r ∈ order, ¬ Landed r :=
    exists_congr fun r => and_congr_left fun _ => horder.mem_iff.symm
  have hpos : 0 < order.length := by
    rw [horder.length_eq]
    exact List.length_pos_of_ne_nil hne
  have hle : landed order ≤ order.length := List.countP_le_length
  rw [hmem, ← landed_lt_iff, ← horder.length_eq]
  constructor
  · rintro ⟨res, hput, hnil, -⟩
    by_contra hnot
    rw [not_or] at hnot
    have hall : landed order = order.length := by omega
    rw [put_eq, if_neg (by omega)] at hput
    have hok : res = .ok () := hnil.mpr (by omega)
    rw [hok] at hput
    cases hput
  · intro hcond
    refine ⟨_, put_eq quorum order, ?_, ?_⟩
    · by_cases hreached : (landed order : ℤ) ≥ atLeastOne quorum
      · rw [if_pos hreached]
        exact ⟨fun _ => by omega, fun _ => rfl⟩
      · rw [if_neg hreached]
        exact ⟨nofun, fun h => by omega⟩
    · intro e he
      by_cases hreached : (landed order : ℤ) ≥ atLeastOne quorum
      · rw [if_pos hreached] at he
        cases he
      · rw [if_neg hreached] at he
        have hlt : landed order < order.length := by omega
        obtain ⟨e', hfound, hproduced⟩ := exists_of_failure (landed_lt_iff.mp hlt)
        rw [hfound] at he
        cases he
        exact hproduced

/-- Two relays that store a blob. -/
def twoStored : List (String × Reply) := [("a", .status 201), ("b", .status 201)]

theorem put_faithful_iff_twoStored :
    Faithful 2 twoStored ↔
      atLeastOne 2 ≤ twoStored.length ∨ ∃ r ∈ twoStored, ¬ Landed r :=
  put_faithful_iff 2 (by decide) (List.Perm.refl _)

/-- Two relays store a blob for a quorum of three, and the put fails with an error
that neither has produced. -/
theorem put_over_quorum :
    put 3 twoStored = .ok (.error .noRelay) ∧ min (atLeastOne 3) twoStored.length ≤ landed twoStored ∧
    (∀ r ∈ twoStored, putOne r.1 r.2 ≠ .error .noRelay) ∧ ¬ Faithful 3 twoStored := by
  refine ⟨by decide, by decide, by decide, ?_⟩
  rintro ⟨res, hput, hnil, -⟩
  have hok : res = .ok () := hnil.mpr (by decide)
  rw [hok] at hput
  exact absurd hput (by decide)

end Quorum

section Deletes

/-- How a relay meets a delete: its handler answers, something before it answers
with a server error, or no answer comes, be the request handled or not. -/
inductive Answers (srv : Server) (q : RestRequest) :
    Model srv.idOf → Reply → Model srv.idOf → Prop
  | handled {m m' : Model srv.idOf} {arr : Arrival} {res : Response} :
      RelayStep srv m (.request .delete q arr res) m' → Answers srv q m (.status res.status) m'
  | serverError (m : Model srv.idOf) {code : ℕ} : 500 ≤ code → Answers srv q m (.status code) m
  | lost {m m' : Model srv.idOf} {arr : Arrival} {res : Response} (e : String) :
      RelayStep srv m (.request .delete q arr res) m' → Answers srv q m (.unreachable e) m'
  | unreachable (m : Model srv.idOf) (e : String) : Answers srv q m (.unreachable e) m
  | unbuilt (m : Model srv.idOf) (e : String) : Answers srv q m (.unbuilt e) m

/-- A relay that an honest client asks for a delete, and what comes of it. -/
structure Contact (key : Signer) (q : RestRequest) where
  url : String
  srv : Server
  honest : key.Honest srv
  before : Model srv.idOf
  reply : Reply
  after : Model srv.idOf
  answers : Answers srv q before reply after

variable {key : Signer} {q : RestRequest} {id : BlobID} {t : ℤ} {now : Int64}

/-- The relay has answered the delete. -/
def Contact.Answered (c : Contact key q) : Prop := ∃ code, c.reply = .status code

/-- A store serves the blob at a time. -/
def Holding {srv : Server} (key : Signer) (id : BlobID) (now : Int64) (m : Model srv.idOf) : Prop :=
  ∃ r, m.held.lookup (srv.idOf key.pub, id) = some r ∧ ¬ r.expiresAt ≤ now

/-- What a get makes of an answer of the handler. -/
def getReply : Response → GetReply
  | .blob _ payload _ _ =>
    .answer 200 (match Lib.Base64.decode Lib.Base64.std true payload with
      | some bytes => .ok bytes
      | none => .error "illegal base64 data")
  | res => .answer res.status (.error "no payload")

/-- A relay answers a get that passes its checks, as it was left by the delete. -/
def Contact.AnswersGet (c : Contact key q) (id : BlobID) (now : Int64) (g : String × GetReply) :
    Prop :=
  g.1 = c.url ∧ ∃ (q' : RestRequest) (arr : Arrival) (res : Response) (m : Model c.srv.idOf),
    c.srv.checkGet q' arr = .ok (key.pub, id) ∧ q'.raw = false ∧
    ¬ "application/octet-stream".toList <:+: q'.accept ∧ arr.now = now ∧
    RelayStep c.srv c.after (.request .get q' arr res) m ∧ g.2 = getReply res

/-- When a delete succeeds, no relay that has answered it serves the blob, and a
get that is answered by such relays alone finds none. -/
def HonestDelete (contacts : List (Contact key q)) (id : BlobID) (now : Int64) : Prop :=
  delete (contacts.map fun c => (c.url, c.reply)) = none →
    (∀ c ∈ contacts, c.Answered → ¬ Holding key id now c.after) ∧
    ∀ gets : List (String × GetReply),
      (∀ g ∈ gets, ∃ c ∈ contacts, c.Answered ∧ c.AnswersGet id now g) →
      get gets = .error .notFound

/-- The statuses that a delete takes for success. -/
def Accepted (reply : Reply) : Prop :=
  reply = .status 204 ∨ reply = .status 200 ∨ reply = .status 404

/-- What the handler does with an honest delete. -/
theorem handled_delete {srv : Server} (hkey : key.Honest srv) (hq : SignedAt key .delete id t q)
    {m m' : Model srv.idOf} {arr : Arrival} {res : Response}
    (h : RelayStep srv m (.request .delete q arr res) m') :
    (res.status = 204 ∧ m' = m.erase (srv.idOf key.pub, id)) ∨ (400 ≤ res.status ∧ m' = m) := by
  cases h with
  | request hexec =>
      by_cases hadmitted : Admitted srv key q arr
      · have hcheck := (checkDelete_signed hkey hq arr).1 hadmitted
        have hholds : Holds Serves (fun _ _ => True)
            (fun (res : Response) m' =>
              (res.status = 204 ∧ m' = m.erase (srv.idOf key.pub, id)) ∨
                (400 ≤ res.status ∧ m' = m))
            (srv.handleDelete q arr) m := by
          rw [Server.handleDelete, hcheck]
          refine ⟨trivial, fun ans m' hserves => ?_⟩
          cases hserves with
          | delete =>
              unfold Model.delete
              split
              next =>
                refine ⟨trivial, fun _ m'' hpublish => ?_⟩
                cases hpublish
                exact .inl ⟨rfl, rfl⟩
              next => exact .inr ⟨Nat.le_add_right 400 4, rfl⟩
          | deleteFailed => exact .inr ⟨Nat.le_add_right 400 4, rfl⟩
        exact hholds.exec hexec
      · obtain ⟨res', hres, hstatus⟩ := (checkDelete_signed hkey hq arr).2 hadmitted
        change Exec Serves m (srv.handleDelete q arr) res m' at hexec
        rw [Server.handleDelete, hres] at hexec
        cases hexec
        exact .inr ⟨hstatus, rfl⟩

/-- A relay that has answered with 204 has erased the blob, and one that has
answered otherwise has kept its store. -/
theorem Contact.answered (c : Contact key q) (hq : SignedAt key .delete id t q) {code : ℕ}
    (hcode : c.reply = .status code) :
    (code = 204 ∧ c.after = c.before.erase (c.srv.idOf key.pub, id)) ∨
      (400 ≤ code ∧ c.after = c.before) := by
  obtain ⟨_, srv, hkey, before, reply, after, hanswers⟩ := c
  dsimp only at hcode ⊢
  cases hanswers with
  | handled hstep =>
      cases hcode
      exact handled_delete hkey hq hstep
  | serverError hge =>
      cases hcode
      exact .inr ⟨by omega, rfl⟩
  | lost | unreachable | unbuilt => cases hcode

theorem not_holding_erase {srv : Server} (m : Model srv.idOf) :
    ¬ Holding key id now (m.erase (srv.idOf key.pub, id)) := by
  rintro ⟨r, hr, -⟩
  rw [Model.erase, lookup_erase_eq, if_pos rfl] at hr
  cases hr

/-- A relay that serves the blob after it has answered is one that served it before
and has not answered with 204. -/
theorem Contact.holding_iff (c : Contact key q) (hq : SignedAt key .delete id t q) {code : ℕ}
    (hcode : c.reply = .status code) :
    Holding key id now c.after ↔ Holding key id now c.before ∧ code ≠ 204 := by
  rcases c.answered hq hcode with ⟨rfl, hafter⟩ | ⟨hge, hafter⟩
  · rw [hafter]
    exact ⟨fun h => absurd h (not_holding_erase _), fun h => absurd rfl h.2⟩
  · rw [hafter]
    exact ⟨fun h => ⟨h, by omega⟩, fun h => h.1⟩

/-- A delete succeeds when some answer is taken for success. -/
theorem delete_eq_none_iff (replies : List (String × Reply)) :
    delete replies = none ↔ ∃ r ∈ replies, Accepted r.2 := by
  have hfold : ∀ (replies : List (String × Reply)) (acc : Bool × Option ClientErr),
      (replies.foldl (fun acc r => deleteOne acc.1 acc.2 r.1 r.2) acc).1 = true ↔
        acc.1 = true ∨ ∃ r ∈ replies, Accepted r.2 := by
    intro replies
    induction replies with
    | nil => simp
    | cons r replies ih =>
        intro acc
        have hone : (deleteOne acc.1 acc.2 r.1 r.2).1 = true ↔ acc.1 = true ∨ Accepted r.2 := by
          unfold deleteOne Accepted
          cases r.2 with
          | unbuilt | unreachable => simp
          | status code =>
              dsimp only
              split
              next h => simpa using .inr (h.imp_right .inl)
              next h =>
                obtain ⟨h204, h200⟩ := not_or.mp h
                split
                next h404 => simp [h204, h200, h404]
                next h404 => simp [not_not.mp h404]
        rw [List.foldl_cons, ih, hone, List.exists_mem_cons_iff, or_assoc]
  unfold delete
  have h := hfold replies (false, none)
  dsimp only
  split
  next hok => exact ⟨fun _ => by simpa using h.mp hok, fun _ => rfl⟩
  next hnot =>
    refine ⟨fun hnone => ?_, fun hex => absurd (h.mpr (.inr hex)) hnot⟩
    split at hnone <;> cases hnone

theorem getOne_storeGetErr (u : String) (e : Err) :
    getOne u (getReply (storeGetErr e)) = .error .notFound := by
  cases e <;> rfl

/-- A store that does not serve the blob answers a get with an error. -/
theorem get_error {srv : Server} {m : Model srv.idOf} (hnot : ¬ Holding key id now m) :
    ∃ e, (m.get (srv.idOf key.pub, id) now).1 = .error e := by
  unfold Model.get
  cases hr : m.held.lookup (srv.idOf key.pub, id) with
  | none => exact ⟨_, rfl⟩
  | some r =>
      have hexpired : r.expiresAt ≤ now := by
        by_contra h
        exact hnot ⟨r, hr, h⟩
      dsimp only
      rw [if_pos hexpired]
      exact ⟨_, rfl⟩

theorem Contact.answersGet_notFound {c : Contact key q} {g : String × GetReply}
    (hg : c.AnswersGet id now g) (hnot : ¬ Holding key id now c.after) :
    getOne g.1 g.2 = .error .notFound := by
  obtain ⟨-, q', arr, res, m, hcheck, hraw, haccept, hnow, hstep, hreply⟩ := hg
  rw [hreply]
  cases hstep with
  | request hexec =>
      have hmode : (decide (q'.raw = true ∨ "application/octet-stream".toList <:+: q'.accept)) =
          false := decide_eq_false fun h => by
        rcases h with h | h
        · rw [hraw] at h
          cases h
        · exact haccept h
      have hholds : Holds Serves (fun _ _ => True)
          (fun (res : Response) _ => ∃ e, res = storeGetErr e) (c.srv.handleGet q' arr) c.after := by
        rw [Server.handleGet, hcheck]
        dsimp only
        rw [hmode, if_neg fun h => Bool.false_ne_true h.1]
        refine ⟨trivial, fun ans m' hserves => ?_⟩
        cases hserves with
        | get =>
            rw [hnow]
            obtain ⟨e, he⟩ := get_error hnot
            rw [he]
            exact ⟨e, rfl⟩
        | getFailed => exact ⟨_, rfl⟩
      obtain ⟨e, rfl⟩ := hholds.exec hexec
      exact getOne_storeGetErr g.1 e

theorem get_notFound {gets : List (String × GetReply)}
    (h : ∀ g ∈ gets, getOne g.1 g.2 = .error .notFound) : get gets = .error .notFound := by
  unfold get
  induction gets with
  | nil => rfl
  | cons g gets ih =>
      rw [getFrom, h g List.mem_cons_self]
      exact ih fun g' hg' => h g' (List.mem_cons_of_mem _ hg')

/-- A delete is honest exactly when it fails, since no relay answers 200, 204 or
404, or when each relay that serves the blob and answers, answers 204. -/
theorem honestDelete_iff (hq : SignedAt key .delete id t q) (contacts : List (Contact key q)) :
    HonestDelete contacts id now ↔
      (∀ c ∈ contacts, ¬ Accepted c.reply) ∨
        ∀ c ∈ contacts, ∀ code, c.reply = .status code → Holding key id now c.before →
          code = 204 := by
  have hnil : delete (contacts.map fun c => (c.url, c.reply)) = none ↔
      ∃ c ∈ contacts, Accepted c.reply := by
    rw [delete_eq_none_iff]
    simp only [List.mem_map, exists_exists_and_eq_and]
  constructor
  · intro hhonest
    by_cases hok : ∃ c ∈ contacts, Accepted c.reply
    · right
      intro c hc code hcode hbefore
      by_contra hne
      exact (hhonest (hnil.mpr hok)).1 c hc ⟨code, hcode⟩ ((c.holding_iff hq hcode).mpr ⟨hbefore, hne⟩)
    · left
      intro c hc haccepted
      exact hok ⟨c, hc, haccepted⟩
  · rintro (hnone | hall) hdelete
    · obtain ⟨c, hc, haccepted⟩ := hnil.mp hdelete
      exact absurd haccepted (hnone c hc)
    · have hgone : ∀ c ∈ contacts, c.Answered → ¬ Holding key id now c.after := by
        rintro c hc ⟨code, hcode⟩ hafter
        obtain ⟨hbefore, hne⟩ := (c.holding_iff hq hcode).mp hafter
        exact hne (hall c hc code hcode hbefore)
      refine ⟨hgone, fun gets hgets => get_notFound fun g hg => ?_⟩
      obtain ⟨c, hc, hanswered, hanswers⟩ := hgets g hg
      exact c.answersGet_notFound hanswers (hgone c hc hanswered)

/-- A relay that does not have the blob, and one that has it and answers with a
server error. -/
def missingRelay : Contact zeroSigner blankRequest where
  url := "a"
  srv := openServer
  honest := zeroSigner_honest
  before := Model.empty
  reply := .status 404
  after := Model.empty
  answers := by
    have hcheck : openServer.checkDelete blankRequest (arrivalAt 0) = .ok (zeroKey, zeroID) :=
      (checkDelete_signed zeroSigner_honest (blankRequest_signedAt 0) (arrivalAt 0)).1
        ⟨rfl, rfl, rfl⟩
    have hstep : RelayStep openServer Model.empty
        (.request .delete blankRequest (arrivalAt 0) (.error 404 "not_found" "not found"))
        Model.empty := by
      refine .request ?_
      change Exec Serves Model.empty (openServer.handleDelete blankRequest (arrivalAt 0)) _ _
      rw [Server.handleDelete, hcheck]
      exact .step (.delete _ _ _) (.refl _ _)
    exact .handled hstep

def oneBlob : Model openServer.idOf := Model.empty.insert (openServer.putRecord putFields 0)

def failingRelay : Contact zeroSigner blankRequest where
  url := "b"
  srv := openServer
  honest := zeroSigner_honest
  before := oneBlob
  reply := .status 500
  after := oneBlob
  answers := .serverError _ (Nat.le_refl 500)

theorem holding_oneBlob : Holding zeroSigner zeroID 0 oneBlob :=
  ⟨openServer.putRecord putFields 0, AList.lookup_insert _, by decide +kernel⟩

theorem honestDelete_iff_missingRelay :
    HonestDelete [missingRelay] zeroID 0 ↔
      (∀ c ∈ [missingRelay], ¬ Accepted c.reply) ∨
        ∀ c ∈ [missingRelay], ∀ code, c.reply = .status code →
          Holding zeroSigner zeroID 0 c.before → code = 204 :=
  honestDelete_iff (blankRequest_signedAt 0) [missingRelay]

/-- The delete succeeds on a relay that does not have the blob, while another that
answers with a server error goes on serving it. -/
theorem delete_hides_server_error :
    delete [("a", .status 404), ("b", .status 500)] = none ∧
    failingRelay.Answered ∧ Holding zeroSigner zeroID 0 failingRelay.after ∧
    ¬ HonestDelete [missingRelay, failingRelay] zeroID 0 := by
  have hnil : delete [("a", .status 404), ("b", .status 500)] = none := by decide
  refine ⟨hnil, ⟨500, rfl⟩, holding_oneBlob, fun h => ?_⟩
  exact (h hnil).1 failingRelay (by simp) ⟨500, rfl⟩ holding_oneBlob

end Deletes

end Tactile.Relay.MultiClient
