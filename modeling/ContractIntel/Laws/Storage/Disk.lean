import ContractIntel.Lib.Refinement
import ContractIntel.Storage.Local

/-!
# The disk under many threads

What a file system call does (`Change`), and what it leaves to the others: a thread has its temporary
file to itself until the file has its place under a content hash, and no call changes a file that lies
there. So what has been opened is read as it was, whatever becomes of its name.

## What is proved

- `exec_withFiles`: the operations that have nothing to do with files do the same with any files.
- `fileExec_change`: every call is one of the changes.
- `Change.own`, `Change.others`: what a call leaves its own thread and the others; `tenancy`.
- `fileExec_files`: all but `replace` and `unlink` leave the documents as they are.
-/

namespace ContractIntel.Storage

open Parsing (Bytes)
open Lib (Tenancy Refinement)

/-! ## The rest of the store -/

/-- The store with other files. -/
def withFiles (files : Uuid → Str → Option Bytes) (s : Store) : Store := { s with files := files }

section Frame

variable {α : Type} {a : Answer} {l : Session} {s : Store}
  {files : Uuid → Str → Option Bytes}

/-- What a statement does, with other files. -/
def Framed (files : Uuid → Str → Option Bytes) (o : Op) (a : Answer) (l : Session) (s : Store) :
    Prop :=
  exec o a l (withFiles files s) =
    ((exec o a l s).1, (exec o a l s).2.1, withFiles files (exec o a l s).2.2)

theorem statement_withFiles (body : Store → Except Exn (α × Store)) (hbody : body (withFiles files s) =
    (body s).map fun r => (r.1, withFiles files r.2)) :
    statement body a l (withFiles files s) =
      ((statement body a l s).1, (statement body a l s).2.1,
        withFiles files (statement body a l s).2.2) := by
  unfold statement
  rw [hbody]
  split
  · rfl
  · cases a.refusal with
    | some reason => rfl
    | none => cases body s <;> rfl

theorem query_withFiles {read : Store → α} (hread : read (withFiles files s) = read s) :
    query read a l (withFiles files s) =
      ((query read a l s).1, (query read a l s).2.1, withFiles files (query read a l s).2.2) :=
  statement_withFiles _ (congrArg (fun r => Except.ok (r, withFiles files s)) hread)

theorem insert_withFiles {write : Store → Store}
    (hwrite : write (withFiles files s) = withFiles files (write s)) :
    insert write a l (withFiles files s) =
      ((insert write a l s).1, (insert write a l s).2.1, withFiles files (insert write a l s).2.2) :=
  statement_withFiles _ (congrArg (fun t => Except.ok ((), t)) hwrite)

theorem ite_withFiles {c : Prop} [Decidable c] {x x' y y' : Except Exn (α × Store)}
    (hx : x' = x.map fun r => (r.1, withFiles files r.2))
    (hy : y' = y.map fun r => (r.1, withFiles files r.2)) :
    (if c then x' else y') = (if c then x else y).map fun r => (r.1, withFiles files r.2) := by
  split
  · exact hx
  · exact hy

theorem replaceTextAndChunks_withFiles (tenantId documentId : Uuid) (text : Str)
    (pageMap : List Parsing.PageSpan) (chunks : List Chunking.Chunk) (embeddings : List Embedding)
    (drawn : List Uuid) :
    Store.replaceTextAndChunks tenantId documentId text pageMap chunks embeddings drawn
        (withFiles files s) =
      (Store.replaceTextAndChunks tenantId documentId text pageMap chunks embeddings drawn s).map
        fun r => (r.1, withFiles files r.2) := by
  unfold Store.replaceTextAndChunks Store.replaceText Store.replaceWithEmbeddings
  show (Bind.bind (if (s.document? documentId).isNone then _ else _) _) = _
  cases (s.document? documentId).isNone with
  | true => rfl
  | false =>
    by_cases hlength : chunks.length ≠ embeddings.length
    · simp only [if_pos hlength]
      rfl
    · simp only [if_neg hlength]
      rfl

/-- The operations on files. -/
def usesFiles : Op → Bool
  | .saveFile .. | .unlinkFile .. | .readFile .. | .isFile .. => true
  | _ => false

theorem exec_withFiles {o : Op} (ho : usesFiles o = false) : Framed files o a l s := by
  unfold Framed
  cases o with
  | saveFile | unlinkFile | readFile | isFile => cases ho
  | rollback | parseChat | createEmbeddings => rfl
  | replaceTextAndChunks => exact statement_withFiles _ (replaceTextAndChunks_withFiles ..)
  | insertDocument | setDocumentStatus | insertJob =>
    exact statement_withFiles _ (ite_withFiles rfl (ite_withFiles rfl rfl))
  | deleteSweep | completeJob | failJob | insertReviewItems =>
    exact statement_withFiles _ (ite_withFiles rfl rfl)
  | insertUsage | insertAudit => exact insert_withFiles rfl
  | claimJob kind => exact statement_withFiles (Store.claimJob kind a.locked) rfl
  | resolveReviewItem tenantId itemId status correctedValues =>
    exact statement_withFiles (Store.resolveReviewItem tenantId itemId status correctedValues) rfl
  | _ => exact query_withFiles rfl

end Frame

/-! ## What threads have to themselves -/

namespace Disk

variable {d : Disk} {tenantId : Uuid} {name : Name}

theorem setEntry_entries (file : Option Nat) (t : Uuid) (n : Name) :
    (d.setEntry tenantId name file).entries t n =
      if t = tenantId ∧ n = name then file else d.entries t n := rfl

theorem create_entries (t : Uuid) (n : Name) : (d.create tenantId name).entries t n =
    if t = tenantId ∧ n = name then some d.next else d.entries t n := rfl

theorem setData_same (file : Nat) (bytes : Bytes) : (d.setData file bytes).data file = bytes :=
  Function.update_self ..

theorem setData_of_ne {file other : Nat} (h : other ≠ file) (bytes : Bytes) :
    (d.setData file bytes).data other = d.data other :=
  Function.update_of_ne h ..

theorem create_data_same : (d.create tenantId name).data d.next = [] := Function.update_self ..

theorem create_data_of_ne {other : Nat} (h : other ≠ d.next) :
    (d.create tenantId name).data other = d.data other :=
  Function.update_of_ne h ..

/-- Every name is the name of a file. -/
def Valid (d : Disk) : Prop := ∀ t n file, d.entries t n = some file → file < d.next

end Disk

namespace Handle

/-- A temporary file has its one name; a file that is read is there. -/
def Fits (d : Disk) : Handle → Prop
  | .none => True
  | .temp tenantId drawn file => file < d.next ∧
      ∀ t n, d.entries t n = some file ↔ t = tenantId ∧ n = .temp drawn
  | .reading file _ => file < d.next

/-- A temporary file is in no other hands. -/
def Apart : Handle → Handle → Prop
  | .temp _ _ file, .temp _ _ other | .temp _ _ file, .reading other _
  | .reading file _, .temp _ _ other => file ≠ other
  | _, _ => True

/-- The content of the file in hand is the same. -/
def Spares (d d' : Disk) : Handle → Prop
  | .none => True
  | .temp _ _ file | .reading file _ => d'.data file = d.data file

theorem apart_symm {h m : Handle} (hm : h.Apart m) : m.Apart h := by
  cases h <;> cases m <;> first | trivial | exact Ne.symm hm

theorem spares_refl (h : Handle) (d : Disk) : h.Spares d d := by
  cases h <;> trivial

theorem spares_of_data (h : Handle) {d d' : Disk} (hdata : d'.data = d.data) : h.Spares d d' := by
  cases h with
  | none => trivial
  | temp tenantId drawn file => exact congrFun hdata file
  | reading file offset => exact congrFun hdata file

theorem spares_trans {h : Handle} {d₁ d₂ d₃ : Disk} (h₁ : h.Spares d₁ d₂) (h₂ : h.Spares d₂ d₃) :
    h.Spares d₁ d₃ := by
  cases h with
  | none => trivial
  | temp | reading => exact Eq.trans h₂ h₁

end Handle

/-- What a call does to what the thread has in hand and to the disk. -/
inductive Change (o : FileOp) (h : Handle) (d : Disk) : Handle → Disk → Prop
  | same : Change o h d h d
  | makeDir (dirs : Uuid → Bool) : Change o h d h { d with dirs := dirs }
  | create {tenantId : Uuid} {drawn : Str} (hfree : d.entries tenantId (.temp drawn) = none) :
    Change o h d (.temp tenantId drawn d.next) (d.create tenantId (.temp drawn))
  | write {tenantId : Uuid} {drawn : Str} {file : Nat} (hh : h = .temp tenantId drawn file)
    (bytes : Bytes) : Change o h d h (d.setData file bytes)
  | replace {tenantId tenant : Uuid} {drawn sha256 : Str} {file linked : Nat}
    (ho : o = .replace tenantId sha256) (hh : h = .temp tenant drawn file)
    (hlinked : d.entries tenant (.temp drawn) = some linked) :
    Change o h d .none
      ((d.setEntry tenant (.temp drawn) none).setEntry tenantId (.stored sha256) (some linked))
  | unlinkTemp {tenantId : Uuid} {drawn : Str} {file : Nat} (hh : h = .temp tenantId drawn file) :
    Change o h d .none (d.setEntry tenantId (.temp drawn) none)
  | unlink {tenantId : Uuid} {sha256 : Str} (ho : o = .unlink tenantId sha256) :
    Change o h d h (d.setEntry tenantId (.stored sha256) none)
  | openRead {tenantId : Uuid} {sha256 : Str} {file : Nat}
    (hfile : d.entries tenantId (.stored sha256) = some file) : Change o h d (.reading file 0) d
  | advance {file offset : Nat} (hh : h = .reading file offset) (offset' : Nat) :
    Change o h d (.reading file offset') d
  | close {file offset : Nat} (hh : h = .reading file offset) : Change o h d .none d

theorem fileExec_change (o : FileOp) (a : DiskAnswer) (h : Handle) (d : Disk) :
    Change o h d (fileExec o a h d).2.1 (fileExec o a h d).2.2 := by
  cases hrefusal : a.refusal with
  | some reason =>
    cases o with
    | close =>
      simp only [fileExec, refusable, hrefusal]
      cases h with
      | reading file offset => exact .close rfl
      | _ => exact .same
    | isFile => exact .same
    | _ =>
      simp only [fileExec, refusable, hrefusal]
      exact .same
  | none =>
    cases o with
    | makeDir tenantId =>
      simp only [fileExec, refusable, hrefusal]
      exact .makeDir _
    | makeTemp tenantId =>
      simp only [fileExec, refusable, hrefusal]
      split
      · split
        next drawn hfind => exact .create (by simpa using List.find?_some hfind)
        next => exact .same
      · exact .same
    | write bytes =>
      simp only [fileExec, refusable, hrefusal]
      cases h with
      | temp tenantId drawn file => exact .write rfl _
      | _ => exact .same
    | close =>
      simp only [fileExec, refusable, hrefusal]
      cases h with
      | reading file offset => exact .close rfl
      | _ => exact .same
    | replace tenantId sha256 =>
      simp only [fileExec, refusable, hrefusal]
      cases h with
      | temp tenant drawn file =>
        dsimp only
        split
        next linked hlinked => exact .replace rfl rfl hlinked
        next => exact .same
      | _ => exact .same
    | unlinkTemp =>
      simp only [fileExec, refusable, hrefusal]
      cases h with
      | temp tenant drawn file =>
        dsimp only
        split
        · exact .unlinkTemp rfl
        · exact .same
      | _ => exact .same
    | unlink tenantId sha256 =>
      simp only [fileExec, refusable, hrefusal]
      split
      · exact .unlink rfl
      · exact .same
    | openRead tenantId sha256 =>
      simp only [fileExec, refusable, hrefusal]
      split
      next file hfile => exact .openRead hfile
      next => exact .same
    | fileSize =>
      simp only [fileExec, refusable, hrefusal]
      cases h <;> exact .same
    | read =>
      simp only [fileExec, refusable, hrefusal]
      cases h with
      | reading file offset => exact .advance rfl _
      | _ => exact .same
    | isFile => exact .same

namespace Change

variable {o : FileOp} {h h' m : Handle} {d d' : Disk}

theorem own (hc : Change o h d h' d') (hvalid : d.Valid) (hfits : h.Fits d) :
    d'.Valid ∧ h'.Fits d' := by
  cases hc with
  | same => exact ⟨hvalid, hfits⟩
  | makeDir dirs => exact ⟨hvalid, by cases h <;> exact hfits⟩
  | @create tenantId drawn hfree =>
    refine ⟨fun t n file hfile => ?_, Nat.lt_succ_self _, fun t n => ?_⟩
    · rw [Disk.create_entries] at hfile
      split at hfile
      · cases hfile
        exact Nat.lt_succ_self _
      · exact Nat.lt_succ_of_lt (hvalid t n file hfile)
    · rw [Disk.create_entries]
      split
      · exact iff_of_true rfl ‹_›
      · refine iff_of_false (fun hfile => ?_) ‹_›
        exact Nat.lt_irrefl _ (hvalid t n d.next hfile)
  | write hh bytes => exact ⟨hvalid, by cases h <;> exact hfits⟩
  | @replace tenantId tenant drawn sha256 file linked ho hh hlinked =>
    refine ⟨fun t n file hfile => ?_, trivial⟩
    rw [Disk.setEntry_entries, Disk.setEntry_entries] at hfile
    split at hfile
    · cases hfile
      exact hvalid _ _ _ hlinked
    · split at hfile
      · cases hfile
      · exact hvalid t n file hfile
  | unlinkTemp hh =>
    refine ⟨fun t n file hfile => ?_, trivial⟩
    rw [Disk.setEntry_entries] at hfile
    split at hfile
    · cases hfile
    · exact hvalid t n file hfile
  | @unlink tenantId sha256 ho =>
    refine ⟨fun t n file hfile => ?_, ?_⟩
    · rw [Disk.setEntry_entries] at hfile
      split at hfile
      · cases hfile
      · exact hvalid t n file hfile
    · cases h with
      | temp tenant drawn file =>
        refine ⟨hfits.1, fun t n => ?_⟩
        rw [Disk.setEntry_entries, ← hfits.2]
        split
        next hname =>
          rw [hfits.2, hname.2]
          simp
        next => exact Iff.rfl
      | _ => exact hfits
  | openRead hfile => exact ⟨hvalid, hvalid _ _ _ hfile⟩
  | advance hh offset' =>
    subst hh
    exact ⟨hvalid, hfits⟩
  | close hh => exact ⟨hvalid, trivial⟩

/-- A name that no temporary file of another thread has is given away or taken. -/
theorem fits_setEntry {t : Uuid} {n : Name} {linked : Option Nat} (hm : m.Fits d)
    (hother : ∀ tenant drawn file, m = .temp tenant drawn file →
      linked ≠ some file ∧ d.entries t n ≠ some file) : m.Fits (d.setEntry t n linked) := by
  cases m with
  | temp tenant drawn file =>
    obtain ⟨hlinked, hentry⟩ := hother tenant drawn file rfl
    refine ⟨hm.1, fun t' n' => ?_⟩
    rw [Disk.setEntry_entries]
    split
    next hname =>
      refine iff_of_false hlinked fun h => hentry ?_
      rw [← hname.1, ← hname.2]
      exact (hm.2 t' n').mpr h
    next => exact hm.2 t' n'
  | _ => exact hm

theorem others (hc : Change o h d h' d') (hfits : h.Fits d) (hm : m.Fits d)
    (hapart : h.Apart m) : m.Fits d' ∧ h'.Apart m ∧ m.Spares d d' := by
  cases hc with
  | same => exact ⟨hm, hapart, m.spares_refl d⟩
  | makeDir dirs => exact ⟨by cases m <;> exact hm, hapart, by cases m <;> trivial⟩
  | @create tenantId drawn hfree =>
    have hfits' : m.Fits (d.create tenantId (.temp drawn)) := by
      have hset : m.Fits (d.setEntry tenantId (.temp drawn) (some d.next)) := by
        refine fits_setEntry hm fun tenant drawn' file hmine => ?_
        subst hmine
        exact ⟨fun h => Nat.lt_irrefl _ (Option.some.inj h ▸ hm.1), by rw [hfree]; simp⟩
      cases m with
      | none => trivial
      | temp => exact ⟨Nat.lt_succ_of_lt hset.1, hset.2⟩
      | reading => exact Nat.lt_succ_of_lt hm
    refine ⟨hfits', ?_⟩
    cases m with
    | none => exact ⟨trivial, trivial⟩
    | temp tenant drawn' file => exact ⟨(Nat.ne_of_lt hm.1).symm, Disk.create_data_of_ne (Nat.ne_of_lt hm.1)⟩
    | reading file offset => exact ⟨(Nat.ne_of_lt hm).symm, Disk.create_data_of_ne (Nat.ne_of_lt hm)⟩
  | write hh bytes =>
    subst hh
    refine ⟨by cases m <;> exact hm, hapart, ?_⟩
    cases m with
    | none => trivial
    | temp | reading => exact Disk.setData_of_ne (Ne.symm hapart) bytes
  | @replace tenantId tenant drawn sha256 file linked ho hh hlinked =>
    subst hh
    obtain rfl : linked = file := by
      have hmine := (hfits.2 tenant (.temp drawn)).mpr ⟨rfl, rfl⟩
      exact Option.some.inj (hlinked.symm.trans hmine)
    refine ⟨?_, by cases m <;> trivial, m.spares_of_data rfl⟩
    refine fits_setEntry (fits_setEntry hm ?_) ?_
    · rintro tenant' drawn' file' rfl
      exact ⟨by simp, by rw [hlinked]; exact fun h => hapart (Option.some.inj h)⟩
    · rintro tenant' drawn' file' rfl
      refine ⟨fun h => hapart (Option.some.inj h), ?_⟩
      rw [Disk.setEntry_entries, if_neg (by simp), Ne, hm.2]
      simp
  | @unlinkTemp tenant drawn file hh =>
    subst hh
    refine ⟨fits_setEntry hm ?_, by cases m <;> trivial, m.spares_of_data rfl⟩
    rintro tenant' drawn' file' rfl
    have hmine := (hfits.2 tenant (.temp drawn)).mpr ⟨rfl, rfl⟩
    exact ⟨by simp, by rw [hmine]; exact fun h => hapart (Option.some.inj h)⟩
  | @unlink tenantId sha256 ho =>
    refine ⟨fits_setEntry hm ?_, hapart, m.spares_of_data rfl⟩
    rintro tenant' drawn' file' rfl
    exact ⟨by simp, by rw [Ne, hm.2]; simp⟩
  | @openRead tenantId sha256 file hfile =>
    refine ⟨hm, ?_, m.spares_refl d⟩
    cases m with
    | temp tenant drawn other =>
      intro heq
      have hname := (hm.2 tenantId (.stored sha256)).mp (hfile.trans (congrArg some heq))
      cases hname.2
    | _ => trivial
  | advance hh offset' =>
    subst hh
    exact ⟨hm, by cases m <;> exact hapart, m.spares_refl d⟩
  | close hh => exact ⟨hm, by cases m <;> trivial, m.spares_refl d⟩

end Change

/-- The calls that do nothing to the documents. -/
def FileOp.quiet : FileOp → Bool
  | .replace .. | .unlink .. => false
  | _ => true

/-- All but `replace` and `unlink` leave the documents as they are. -/
theorem fileExec_files {o : FileOp} {a : DiskAnswer} {h : Handle} {d : Disk} (ho : o.quiet = true)
    (hvalid : d.Valid) (hfits : h.Fits d) : (fileExec o a h d).2.2.files = d.files := by
  have hdata : ∀ {file : Nat} {bytes : Bytes}, (∀ t sha, d.entries t (.stored sha) ≠ some file) →
      (d.setData file bytes).files = d.files := by
    intro file bytes hother
    funext t sha
    show (d.entries t (.stored sha)).map _ = (d.entries t (.stored sha)).map _
    cases hentry : d.entries t (.stored sha) with
    | none => rfl
    | some other =>
      have hne : other ≠ file := fun h => hother t sha (h ▸ hentry)
      exact congrArg some (Disk.setData_of_ne hne bytes)
  have hchange := fileExec_change o a h d
  generalize (fileExec o a h d).2.1 = h' at hchange
  generalize (fileExec o a h d).2.2 = d' at hchange ⊢
  cases hchange with
  | @create tenantId drawn hfree =>
    have hfiles := @hdata d.next [] fun t sha h => Nat.lt_irrefl _ (hvalid t _ _ h)
    rw [← hfiles]
    funext t sha
    show ((d.create tenantId (.temp drawn)).entries t (.stored sha)).map _ = _
    rw [Disk.create_entries, if_neg (by simp)]
    rfl
  | write hh bytes =>
    subst hh
    refine hdata fun t sha h => ?_
    cases ((hfits.2 t (.stored sha)).mp h).2
  | replace ho' | unlink ho' =>
    subst ho'
    cases ho
  | unlinkTemp hh =>
    funext t sha
    show ((d.setEntry _ (.temp _) none).entries t (.stored sha)).map _ = _
    rw [Disk.setEntry_entries, if_neg (by simp)]
    rfl
  | _ => rfl

/-- Of whatever class, the exception of a call is an `OSError`. -/
theorem fileExec_error {o : FileOp} {a : DiskAnswer} {h : Handle} {d : Disk} {e : Raised}
    (he : (fileExec o a h d).1 = .error e) : ∃ message, e.toExn = .osError message := by
  cases o <;> simp only [fileExec, refusable, badDescriptor, noTempName] at he <;>
    (repeat' split at he) <;> cases he <;> exact ⟨_, rfl⟩

/-- The sessions of the machine have what is in hand to themselves. -/
def tenancy : Tenancy machineExec Machine.tick where
  Inv m := m.disk.Valid
  Fits l m := l.2.Fits m.disk
  Apart l l' := l.2.Apart l'.2
  Spares l m m' := l.2.Spares m.disk m'.disk
  apart_symm _ _ := Handle.apart_symm
  spares_refl l m := l.2.spares_refl m.disk
  spares_trans _ _ _ _ := Handle.spares_trans
  own o a l m hvalid hfits := by
    cases o with
    | base o => exact ⟨hvalid, hfits⟩
    | file o => exact (fileExec_change o a l.2 m.disk).own hvalid hfits
  others o a l l' m _ hfits hfits' hapart := by
    cases o with
    | base o => exact ⟨hfits', hapart, l'.2.spares_refl m.disk⟩
    | file o => exact (fileExec_change o a l.2 m.disk).others hfits hfits' hapart
  drift_inv _ _ hvalid := hvalid
  drift_fits _ _ _ hfits := hfits
  drift_spares _ l m := l.2.spares_refl m.disk

/-- The machine stands for the store with the documents of its disk. -/
def machine : Refinement machineExec Machine.tick exec Store.tick where
  toTenancy := tenancy
  Abs m s := s = m.view
  drift_abs elapsed m s h := by rw [h]; rfl

end ContractIntel.Storage
