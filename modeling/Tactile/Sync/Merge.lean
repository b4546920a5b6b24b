import Tactile.Sync.SyncNow

/-!
What a run decides about a path, what it then does to the relay and to the
collection, and what it notes for the next manifest and the next base.
-/

namespace Tactile.Sync.Merge

open Tactile.Lib.Program Tactile.Lib.Script Tactile.Lib.FiniteMap
open Tactile.Storage.Paths Tactile.Storage.Idb Tactile.Storage.Backend
open Tactile.Sync.Records Tactile.Sync.SyncNow

variable {D P : Type}

section Decision

/-- The branches of the merge. -/
inductive Decision (D : Type)
  | same (r : RemoteFileEntry D)
  | upload (l : LocalFile D)
  | download (r : RemoteFileEntry D)
  | conflictCopy (l : LocalFile D) (r : RemoteFileEntry D)
  | conflictUpload (l : LocalFile D)
  | skip (r : RemoteFileEntry D)
  | deleteLocal (l : LocalFile D) (r : RemoteFileEntry D)
  | tombstone (r : RemoteFileEntry D)
  | keepTombstone (r : RemoteFileEntry D)
  | pruneTombstone
  | nothing
  deriving DecidableEq

/-- The base says another hash than this, or nothing. -/
def changed [DecidableEq D] (s : Option (BaseEntry D)) (h : D) : Bool := s.all fun s => s.h ≠ h

/-- What is decided from the file here, the manifest's entry and the base's. -/
def decision [DecidableEq D] (now : ℤ) (l : Option (LocalFile D)) (r : Option (RemoteFileEntry D))
    (s : Option (BaseEntry D)) : Decision D :=
  match l, r with
  | some l, some r =>
    if r.d then if changed s l.hash then .upload l else .deleteLocal l r
    else if l.hash = r.h then .same r
    else if changed s l.hash then
      if !changed s r.h then .upload l
      else if l.mtime < r.m then .conflictCopy l r else .conflictUpload l
    else if changed s r.h then .download r else .skip r
  | some l, none => .upload l
  | none, some r =>
    if r.d then if tombstonePruneMs < now - r.m then .pruneTombstone else .keepTombstone r
    else if changed s r.h then .download r else .tombstone r
  | none, none => .nothing

variable (C : Crypto D P) (key : Text) (now : ℤ)

/-- The entry that the next manifest gets. -/
def Decision.entry : Decision D → Option (RemoteFileEntry D)
  | .same r | .download r | .conflictCopy _ r | .skip r | .deleteLocal _ r | .keepTombstone r =>
    some r
  | .upload l | .conflictUpload l => some (uploadEntry C key l now)
  | .tombstone r => some { r with d := true, m := now }
  | .pruneTombstone | .nothing => none

/-- The entry that the next base gets. -/
def Decision.base : Decision D → Option (BaseEntry D)
  | .same r | .download r | .conflictCopy _ r | .skip r => some r.base
  | .upload l | .conflictUpload l => some (uploadEntry C key l now).base
  | _ => none

/-- The counters that the success of the path raises. -/
def Decision.counted (res : SyncResult) : Decision D → SyncResult
  | .upload _ => { res with uploaded := res.uploaded + 1 }
  | .download _ => { res with downloaded := res.downloaded + 1 }
  | .conflictCopy .. =>
    { res with conflicts := res.conflicts + 1, downloaded := res.downloaded + 1 }
  | .conflictUpload _ =>
    { res with conflicts := res.conflicts + 1, uploaded := res.uploaded + 1 }
  | .skip _ => { res with skipped := res.skipped + 1 }
  | .deleteLocal .. => { res with deletedLocal := res.deletedLocal + 1 }
  | .tombstone _ => { res with deletedRemote := res.deletedRemote + 1 }
  | _ => res

/-- What has been counted when the path fails. -/
def Decision.begun (res : SyncResult) : Decision D → SyncResult
  | .conflictCopy .. | .conflictUpload _ => { res with conflicts := res.conflicts + 1 }
  | _ => res

theorem Decision.begun_errors (d : Decision D) (res : SyncResult) :
    (d.begun res).errors = res.errors := by
  cases d <;> rfl

theorem Decision.counted_errors (d : Decision D) (res : SyncResult) :
    (d.counted res).errors = res.errors := by
  cases d <;> rfl

end Decision

section Effects

variable (C : Crypto D P) (collection : Text) (now : ℤ)

/-- Whether a part of the run has failed. -/
abbrev PathOutcome : Type := Except SyncError Unit

def putFile (l : LocalFile D) : SyncProg D P PathOutcome := do
  let o : RelayOp D P := .put (fileBlobId C (collectionKey collection) l.rel l.hash)
    (C.encrypt (.bytes l.data)) syncBlobTtlSeconds
  let ans : RelayAns D P o ← Prog.op (SyncOp.relay o)
  pure ((ans.map fun _ => ()).mapError SyncError.relay)

/-- A file and its directory. -/
def placeFile (abs : Text) (data : Except SyncError Bytes) : SyncProg D P PathOutcome :=
  match parentPath abs with
  | .error e => pure (.error (.storage (.storage e)))
  | .ok parent => do
    let made : Except Failure Unit ← Prog.op (SyncOp.storage (.mkdir parent true))
    match made, data with
    | .error e, _ => pure (.error (.storage e))
    | .ok (), .error e => pure (.error e)
    | .ok (), .ok bytes => do
      let written : Except Failure Unit ← Prog.op (SyncOp.storage (.writeFile abs bytes))
      pure (written.mapError SyncError.storage)

def placeAt (rel : Text) (data : Except SyncError Bytes) : SyncProg D P PathOutcome :=
  match joinPath [collection, rel] with
  | .error e => pure (.error (.storage (.storage e)))
  | .ok abs => placeFile abs data

/-- The content of an entry goes to the path. -/
def getFile (r : RemoteFileEntry D) (rel : Text) : SyncProg D P PathOutcome := do
  let ans : RelayAns D P (.get r.b) ← Prog.op (SyncOp.relay (.get r.b))
  match ans with
  | .error e => pure (.error (.relay e))
  | .ok none => pure (.error (.missing rel))
  | .ok (some payload) => placeAt collection rel (decrypted C payload)

/-- What the run does for a decision. -/
def effects (rel : Text) : Decision D → SyncProg D P PathOutcome
  | .upload l | .conflictUpload l => putFile C collection l
  | .download r => getFile C collection r rel
  | .conflictCopy l r => do
    let copied ← placeAt collection (conflictPath rel now) (.ok l.data)
    match copied with
    | .error e => pure (.error e)
    | .ok () => getFile C collection r rel
  | .deleteLocal l _ => do
    let removed : Except Failure Unit ← Prog.op (SyncOp.storage (.remove l.abs false))
    pure (removed.mapError SyncError.storage)
  | _ => pure (.ok ())

/-- What the run has noted after a decision's effects. -/
def settle (rel : Text) (d : Decision D) (m : Merge D) : Except SyncError Unit → Merge D
  | .error e => { m with result := (d.begun m.result).fail (.path rel e) }
  | .ok () =>
    { nextFiles := match d with
        | .pruneTombstone => m.nextFiles.erase rel
        | _ => match d.entry C (collectionKey collection) now with
          | some e => m.nextFiles.insert rel e
          | none => m.nextFiles
      nextState := match d.base C (collectionKey collection) now with
        | some s => { m.nextState with files := m.nextState.files.insert rel s }
        | none => m.nextState
      result := d.counted m.result }

theorem call_upload (l : LocalFile D) (m : Merge D) :
    (upload C collection now l).call m = putFile C collection l >>= fun out =>
      match out with
      | .error e => .ret (.error e, m)
      | .ok () => .ret (.ok (uploadEntry C (collectionKey collection) l now),
          m.count fun res => { res with uploaded := res.uploaded + 1 }) := by
  apply congrArg (Prog.call _)
  funext ans
  cases ans <;> rfl

theorem call_writeBelow (abs : Text) (data : Except SyncError Bytes) {α : Type}
    (f : SyncMethod D P α) (m : Merge D) :
    (writeBelow abs data >>= fun _ => f : SyncMethod D P α).call m =
      placeFile abs data >>= fun out =>
        match out with
        | .error e => .ret (.error e, m)
        | .ok () => f.call m := by
  unfold writeBelow placeFile
  cases parentPath abs with
  | error e => rfl
  | ok parent =>
      apply congrArg (Prog.call _)
      funext made
      rcases made with e | ⟨⟩
      · cases data <;> rfl
      · cases data with
        | error e => rfl
        | ok bytes =>
            apply congrArg (Prog.call _)
            funext ans
            cases ans <;> rfl

theorem call_placeAt (rel : Text) (data : Except SyncError Bytes) {α : Type}
    (f : SyncMethod D P α) (m : Merge D) :
    (do
        let abs ← pathResult (joinPath [collection, rel])
        writeBelow abs data
        f : SyncMethod D P α).call m =
      placeAt collection rel data >>= fun out =>
        match out with
        | .error e => .ret (.error e, m)
        | .ok () => f.call m := by
  unfold placeAt
  cases joinPath [collection, rel] with
  | error e => rfl
  | ok abs => exact call_writeBelow abs data f m

theorem call_download (r : RemoteFileEntry D) (rel : Text) (m : Merge D) :
    (download C collection r rel).call m = getFile C collection r rel >>= fun out =>
      match out with
      | .error e => .ret (.error e, m)
      | .ok () => .ret (.ok (),
          m.count fun res => { res with downloaded := res.downloaded + 1 }) := by
  apply congrArg (Prog.call _)
  funext ans
  rcases ans with e | _ | payload
  · rfl
  · rfl
  · exact call_placeAt collection rel (decrypted C payload) _ m

/-- A path's branch ends with what it has noted, or with an error and what has
been counted before it. -/
def Ends (rel : Text) (d : Decision D) (f : SyncMethod D P Unit) (m : Merge D) : Prop :=
  f.call m = effects C collection now rel d >>= fun out =>
    match out with
    | .error e => .ret (.error e, { m with result := d.begun m.result })
    | .ok () => .ret (.ok (), settle C collection now rel d m (.ok ()))

theorem any_eq_not_changed [DecidableEq D] (s : Option (BaseEntry D)) (h : D) :
    (s.any fun s => s.h = h) = !changed s h := by
  cases s with
  | none => rfl
  | some s => simp [changed]

theorem setBaseOfNext_setNext (m : Merge D) (rel : Text) (e : RemoteFileEntry D) :
    (m.setNext rel e).setBaseOfNext rel = (m.setNext rel e).setBase rel e.base := by
  have hlookup : (m.setNext rel e).nextFiles.lookup rel = some e := AList.lookup_insert _
  unfold Merge.setBaseOfNext
  rw [hlookup]

theorem call_upload_noted (rel : Text) (l : LocalFile D) (m : Merge D) :
    (upload C collection now l >>= fun e => Method.update (fun m => m.setNext rel e) >>= fun _ =>
      Method.update fun m => m.setBaseOfNext rel : SyncMethod D P Unit).call m =
      putFile C collection l >>= fun out =>
        match out with
        | .error e => .ret (.error e, m)
        | .ok () => .ret (.ok (),
            ((m.count fun res => { res with uploaded := res.uploaded + 1 }).setNext rel
              (uploadEntry C (collectionKey collection) l now)).setBase rel (uploadEntry C (collectionKey collection) l now).base) := by
  rw [Method.call_bind, call_upload, Prog.bind_assoc]
  refine bind_congr fun out => ?_
  rcases out with e | ⟨⟩
  · rfl
  · apply congrArg (fun m' => Prog.ret (Except.ok (), m'))
    exact setBaseOfNext_setNext _ _ _

theorem call_download_noted (rel : Text) (r : RemoteFileEntry D) (m : Merge D) :
    (download C collection r rel >>= fun _ => Method.update (fun m => m.setNext rel r) >>= fun _ =>
      Method.update fun m => m.setBaseOfNext rel : SyncMethod D P Unit).call m =
      getFile C collection r rel >>= fun out =>
        match out with
        | .error e => .ret (.error e, m)
        | .ok () => .ret (.ok (),
            ((m.count fun res => { res with downloaded := res.downloaded + 1 }).setNext rel
              r).setBase rel r.base) := by
  rw [Method.call_bind, call_download, Prog.bind_assoc]
  refine bind_congr fun out => ?_
  rcases out with e | ⟨⟩
  · rfl
  · apply congrArg (fun m' => Prog.ret (Except.ok (), m'))
    exact setBaseOfNext_setNext _ _ _

theorem ends_tombstone (rel : Text) (r : RemoteFileEntry D) (m : Merge D) :
    Ends C collection now rel
      (if tombstonePruneMs < now - r.m then .pruneTombstone else .keepTombstone r)
      (mergeTombstone now rel r) m := by
  unfold mergeTombstone
  split
  · rfl
  · rfl

theorem ends_remote [DecidableEq D] (rel : Text) (r : RemoteFileEntry D)
    (s : Option (BaseEntry D)) (m : Merge D) :
    Ends C collection now rel (if changed s r.h then .download r else .tombstone r)
      (mergeRemote C collection now rel r s) m := by
  unfold mergeRemote
  rw [any_eq_not_changed]
  cases changed s r.h with
  | false => rfl
  | true =>
      change Method.call (download C collection r rel >>= _) m = _
      rw [Method.call_bind, call_download, Prog.bind_assoc]
      refine bind_congr fun out => ?_
      rcases out with e | ⟨⟩ <;> rfl

theorem ends_local [DecidableEq D] (rel : Text) (l : LocalFile D)
    (r : Option (RemoteFileEntry D)) (s : Option (BaseEntry D)) (m : Merge D) :
    Ends C collection now rel
      (match r.filter fun _ => !changed s l.hash with
        | some r => .deleteLocal l r
        | none => .upload l)
      (mergeLocal C collection now rel l r s) m := by
  unfold mergeLocal
  rw [any_eq_not_changed]
  cases r.filter fun _ => !changed s l.hash with
  | some r =>
      apply congrArg (Prog.call _)
      funext ans
      cases ans <;> rfl
  | none =>
      refine (call_upload_noted C collection now rel l m).trans ?_
      refine bind_congr fun out => ?_
      rcases out with e | ⟨⟩ <;> rfl

theorem ends_both [DecidableEq D] (rel : Text) (l : LocalFile D) (r : RemoteFileEntry D)
    (s : Option (BaseEntry D)) (m : Merge D) :
    Ends C collection now rel
      (if l.hash = r.h then .same r
        else if changed s l.hash then
          if !changed s r.h then .upload l
          else if l.mtime < r.m then .conflictCopy l r else .conflictUpload l
        else if changed s r.h then .download r else .skip r)
      (mergeBoth C collection now rel l r s) m := by
  unfold mergeBoth
  split
  next => rfl
  next =>
    have hlocal : (s.all fun s => s.h ≠ l.hash) = changed s l.hash := rfl
    have hremote : (s.all fun s => s.h ≠ r.h) = changed s r.h := rfl
    rw [hlocal, hremote]
    cases changed s l.hash with
    | false =>
        cases changed s r.h with
        | false =>
            apply congrArg (fun m' => Prog.ret (Except.ok (), m'))
            exact setBaseOfNext_setNext _ _ _
        | true =>
            refine (call_download_noted C collection rel r m).trans ?_
            refine bind_congr fun out => ?_
            rcases out with e | ⟨⟩ <;> rfl
    | true =>
        cases changed s r.h with
        | false =>
            refine (call_upload_noted C collection now rel l m).trans ?_
            refine bind_congr fun out => ?_
            rcases out with e | ⟨⟩ <;> rfl
        | true =>
            change Ends C collection now rel (if l.mtime < r.m then _ else _)
              (Method.update _ >>= fun _ => if l.mtime < r.m then _ else _) m
            by_cases hlt : l.mtime < r.m
            · simp only [if_pos hlt]
              refine (call_placeAt collection (conflictPath rel now) (.ok l.data) _ _).trans ?_
              refine Eq.trans ?_ (Prog.bind_assoc _ _ _).symm
              refine bind_congr fun out => ?_
              rcases out with e | ⟨⟩
              · rfl
              · refine (call_download_noted C collection rel r _).trans ?_
                refine bind_congr fun out => ?_
                rcases out with e | ⟨⟩ <;> rfl
            · simp only [if_neg hlt]
              refine (call_upload_noted C collection now rel l _).trans ?_
              refine bind_congr fun out => ?_
              rcases out with e | ⟨⟩ <;> rfl

theorem ends_branches [DecidableEq D] (remote : Manifest D) (state : LocalSyncState D)
    (locals : Dict Text (LocalFile D)) (rel : Text) (m : Merge D) :
    Ends C collection now rel
      (decision now (locals.lookup rel) (remote.files.lookup rel) (state.files.lookup rel))
      (mergeBranches C collection remote state locals now rel) m := by
  unfold mergeBranches decision
  cases locals.lookup rel with
  | none =>
      cases remote.files.lookup rel with
      | none => rfl
      | some r =>
          dsimp only
          cases r.d with
          | true => exact ends_tombstone C collection now rel r m
          | false => exact ends_remote C collection now rel r _ m
  | some l =>
      cases remote.files.lookup rel with
      | none => exact ends_local C collection now rel l none _ m
      | some r =>
          dsimp only
          cases r.d with
          | false => exact ends_both C collection now rel l r _ m
          | true =>
              have hlocal := ends_local C collection now rel l (some r) (state.files.lookup rel) m
              cases hchanged : changed (state.files.lookup rel) l.hash with
              | false =>
                  rw [hchanged] at hlocal
                  exact hlocal
              | true =>
                  rw [hchanged] at hlocal
                  exact hlocal

/-- A path is its decision's effects and then what the run notes of them. -/
theorem mergePath_call [DecidableEq D] (remote : Manifest D) (state : LocalSyncState D)
    (locals : Dict Text (LocalFile D)) (rel : Text) (m : Merge D) {d : Decision D}
    (hd : decision now (locals.lookup rel) (remote.files.lookup rel) (state.files.lookup rel) = d) :
    (mergePath C collection remote state locals now rel).call m =
      effects C collection now rel d >>= fun out => .ret (.ok (), settle C collection now rel d m out) := by
  subst hd
  have hends := ends_branches C collection now remote state locals rel m
  unfold mergePath
  rw [Method.call_orElse, hends, Prog.bind_assoc]
  refine bind_congr fun out => ?_
  rcases out with e | ⟨⟩ <;> rfl

end Effects

end Tactile.Sync.Merge
