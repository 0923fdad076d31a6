import ContractIntel.Laws.Storage.Disk

/-!
# The file system refines the store

`save_document`, `delete_document` and `Path.read_bytes` are many calls each, and the services treat
each as one operation. That is sound: a document appears whole, at the `replace` of the thread that saves it; a
read has the content that was there when it opened the file, though it may still fail; a save that
fails, or crashes, before its `replace` leaves the documents as they were.

## What is proved

- `writeAll_carries`, `readAll_carries`: the loops write all of the content and read all of it.
- `save_carries`, `delete_carries`, `read_carries`: the storage functions.
- `onDisk_carries`: every service, its files on the disk.
- `storage_refines`: turn by turn, a run of the machine is a run of the system.
- `view_run`: so what holds of the system's stores holds of what the disk shows.
-/

namespace ContractIntel.Storage

open Parsing (Bytes)
open Lib.Refinement (Possible Follows Ends Matches Carries)

variable {α γ : Type} {session : Session} {h : Handle} {m : Machine}
  {S : Possible Session Op Op.Res Exn γ} {tenantId : Uuid} {sha256 : Str} {content : Bytes}

/-- What the program may be in the system, its operation answered. -/
def Answered {o : Op} (next : Except Exn o.Res → Service γ) (res : Except Raised o.Res)
    (S : Possible Session Op Op.Res Exn γ) (l : Session × Handle) (_ : Machine) : Prop :=
  S = {(l.1, next (res.mapError Raised.toExn))}

/-- The operation fails with any message. -/
theorem refused {o : Op} {message : Str} {s : Store} (next : Except Exn o.Res → Service γ)
    (hexec : exec o { refusal := some message } session s = (.error (.osError message), session, s)) :
    Follows exec {(session, .op o next)} s (session, next (.error (.osError message))) s :=
  .inr ⟨session, o, next, { refusal := some message }, rfl, by rw [hexec], by rw [hexec]⟩

/-- One call: what it does, and what the program may be then. -/
theorem call {o : FileOp} {next : Except Raised o.Res → MachineProgram α}
    {Q : Except Raised α → Possible Session Op Op.Res Exn γ → Session × Handle → Machine → Prop}
    (hcall : ∀ v : Machine, ∀ a, v.disk.Valid → h.Fits v.disk → h.Spares m.disk v.disk →
      ∃ S', S'.Nonempty ∧
        (∀ x ∈ S', Follows exec S v.view x (Machine.view ⟨v.store, (fileExec o a h v.disk).2.2⟩)) ∧
        machine.Carries (next (fileExec o a h v.disk).1) S' (session, (fileExec o a h v.disk).2.1)
          ⟨v.store, (fileExec o a h v.disk).2.2⟩ Q) :
    machine.Carries (.op (.file o) next) S (session, h) m Q := by
  rintro v a _ hvalid hfits hspares rfl
  obtain ⟨S', hne, hfollows, hrest⟩ := hcall v a hvalid hfits hspares
  exact ⟨_, S', rfl, hne, hfollows, hrest⟩

theorem view_of_files {v : Machine} {d : Disk} (hfiles : d.files = v.disk.files) :
    Machine.view ⟨v.store, d⟩ = v.view :=
  congrArg (fun files => { v.store with files := files }) hfiles

/-- A call that leaves the documents as they are. -/
theorem quiet {o : FileOp} {next : Except Raised o.Res → MachineProgram α}
    {Q : Except Raised α → Possible Session Op Op.Res Exn γ → Session × Handle → Machine → Prop}
    (ho : o.quiet = true) (hne : S.Nonempty)
    (hrest : ∀ v : Machine, ∀ a, v.disk.Valid → h.Fits v.disk → h.Spares m.disk v.disk →
      machine.Carries (next (fileExec o a h v.disk).1) S (session, (fileExec o a h v.disk).2.1)
        ⟨v.store, (fileExec o a h v.disk).2.2⟩ Q) :
    machine.Carries (.op (.file o) next) S (session, h) m Q := by
  refine call fun v a hvalid hfits hspares => ⟨S, hne, fun x hx => .inl ⟨hx, ?_⟩, ?_⟩
  · exact view_of_files (fileExec_files ho hvalid hfits)
  · exact hrest v a hvalid hfits hspares

/-! ## Saving -/

/-- The thread has its temporary file, which holds the content when all went well; the documents are
as they were. -/
def Wrote (S₀ : Possible Session Op Op.Res Exn γ) (session : Session) (h : Handle) (file : Nat)
    (content : Bytes) (res : Except Raised Unit) (S : Possible Session Op Op.Res Exn γ)
    (l : Session × Handle) (m : Machine) : Prop :=
  S = S₀ ∧ l = (session, h) ∧ (res = .ok () → m.disk.data file = content) ∧
    ∀ e, res = .error e → ∃ message, e.toExn = .osError message

theorem write_data {t : Uuid} {drawn : Str} {file n : Nat} {bytes : Bytes} {a : DiskAnswer} {d : Disk}
    (hn : (fileExec (.write bytes) a (.temp t drawn file) d).1 = .ok n) :
    (bytes ≠ [] → 0 < n) ∧ (fileExec (.write bytes) a (.temp t drawn file) d).2.2.data file =
      d.data file ++ bytes.take n := by
  cases hrefusal : a.refusal with
  | some reason =>
    simp only [fileExec, refusable, hrefusal] at hn
    cases hn
  | none =>
    simp only [fileExec, refusable, hrefusal] at hn ⊢
    cases hn
    refine ⟨fun hne => ?_, ?_⟩
    · have hlength := List.length_pos_iff.mpr hne
      omega
    · rw [Disk.setData_same, ← List.take_eq_take_min]

theorem write_handle {t : Uuid} {drawn : Str} {file : Nat} {bytes : Bytes} {a : DiskAnswer} {d : Disk} :
    (fileExec (.write bytes) a (.temp t drawn file) d).2.1 = .temp t drawn file := by
  cases hrefusal : a.refusal <;> simp only [fileExec, refusable, hrefusal]

theorem writeAll_carries {t : Uuid} {drawn : Str} {file : Nat} (hne : S.Nonempty) {fuel : Nat}
    {bytes : Bytes} (hfuel : bytes.length ≤ fuel) :
    machine.Carries (writeAll fuel bytes) S (session, .temp t drawn file) m
      (Wrote S session (.temp t drawn file) file (m.disk.data file ++ bytes)) := by
  have hdone : ∀ {m : Machine} {bytes : Bytes}, bytes = [] →
      Wrote S session (.temp t drawn file) file (m.disk.data file ++ bytes) (.ok ()) S
        (session, .temp t drawn file) m := by
    rintro m bytes rfl
    exact ⟨rfl, rfl, fun _ => (List.append_nil _).symm, fun e he => by cases he⟩
  induction fuel generalizing bytes m with
  | zero => exact hdone (List.length_eq_zero_iff.mp (Nat.le_zero.mp hfuel))
  | succ fuel ih =>
    unfold writeAll
    split
    next hnil => exact hdone hnil
    next hnil =>
      refine quiet rfl hne fun v a hvalid hfits hspares => ?_
      rw [write_handle]
      cases hres : (fileExec (.write bytes) a (.temp t drawn file) v.disk).1 with
      | error e =>
        refine ⟨rfl, rfl, fun h => (by cases h), fun e' he => ?_⟩
        cases he
        exact fileExec_error hres
      | ok n =>
        obtain ⟨hpos, hdata⟩ := write_data hres
        have hlength : (bytes.drop n).length ≤ fuel := by
          have := hpos hnil
          rw [List.length_drop]
          omega
        have hrest := ih (m := ⟨v.store, (fileExec (.write bytes) a (.temp t drawn file) v.disk).2.2⟩)
          hlength
        have hsame : v.disk.data file = m.disk.data file := hspares
        dsimp only at hrest
        rw [hdata, hsame, List.append_assoc, List.take_append_drop] at hrest
        exact hrest

theorem close_temp {t : Uuid} {drawn : Str} {file : Nat} {a : DiskAnswer} {d : Disk} :
    (fileExec .close a (.temp t drawn file) d).2 = (.temp t drawn file, d) := by
  cases hrefusal : a.refusal <;> simp only [fileExec, refusable, hrefusal]

theorem withFile_wrote {t : Uuid} {drawn : Str} {file : Nat} {body : MachineProgram Unit}
    (hne : S.Nonempty) (hbody : machine.Carries body S (session, .temp t drawn file) m
      (Wrote S session (.temp t drawn file) file content)) :
    machine.Carries (withFile body) S (session, .temp t drawn file) m
      (Wrote S session (.temp t drawn file) file content) := by
  refine Carries.attempt_bind.mpr (hbody.mono ?_)
  rintro res S' l' v ⟨rfl, rfl, hok, herror⟩
  refine quiet rfl hne fun w a hvalid hfits hspares => ?_
  rw [close_temp]
  have hsame : w.disk.data file = v.disk.data file := hspares
  cases hres : (fileExec .close a (.temp t drawn file) w.disk).1 with
  | error e =>
    refine ⟨rfl, rfl, fun h => (by cases h), fun e' he => ?_⟩
    cases he
    exact fileExec_error hres
  | ok r =>
    cases res with
    | ok _ => exact ⟨rfl, rfl, fun h => hsame.trans (hok h), herror⟩
    | error e => exact ⟨rfl, rfl, fun h => (by cases h), herror⟩

/-- The document is in its place, or the documents are as they were. -/
theorem replace_files (tenantId : Uuid) (sha256 : Str) {t : Uuid} {drawn : Str} {file : Nat}
    (a : DiskAnswer) {d : Disk} (hfits : (Handle.temp t drawn file).Fits d) :
    (fileExec (.replace tenantId sha256) a (.temp t drawn file) d).1 = .ok () ∧
        (fileExec (.replace tenantId sha256) a (.temp t drawn file) d).2.2.files =
          (fun tenant sha => if tenant = tenantId ∧ sha = sha256 then some (d.data file)
            else d.files tenant sha) ∨
      (∃ e, (fileExec (.replace tenantId sha256) a (.temp t drawn file) d).1 = .error e) ∧
        (fileExec (.replace tenantId sha256) a (.temp t drawn file) d).2 = (.temp t drawn file, d) := by
  have hentry := (hfits.2 t (.temp drawn)).mpr ⟨rfl, rfl⟩
  cases hrefusal : a.refusal with
  | some reason =>
    have hexec : fileExec (.replace tenantId sha256) a (.temp t drawn file) d =
        (.error (.exn (.osError reason)), .temp t drawn file, d) := by
      simp only [fileExec, refusable, hrefusal]
    rw [hexec]
    exact .inr ⟨⟨_, rfl⟩, rfl⟩
  | none =>
    have hexec : fileExec (.replace tenantId sha256) a (.temp t drawn file) d = (.ok (), .none,
        (d.setEntry t (.temp drawn) .none).setEntry tenantId (.stored sha256) (some file)) := by
      simp only [fileExec, refusable, hrefusal, hentry]
    rw [hexec]
    refine .inl ⟨rfl, ?_⟩
    funext tenant sha
    show (((d.setEntry t (.temp drawn) none).setEntry tenantId (.stored sha256) (some file)).entries
      tenant (.stored sha)).map d.data = _
    rw [Disk.setEntry_entries]
    by_cases hname : tenant = tenantId ∧ sha = sha256
    · rw [if_pos hname, if_pos ⟨hname.1, by rw [hname.2]⟩]
      rfl
    · rw [if_neg hname, if_neg (fun h => hname ⟨h.1, Name.stored.inj h.2⟩), Disk.setEntry_entries,
        if_neg (fun h => by cases h.2)]
      rfl

theorem makeTemp_ok {a : DiskAnswer} {d : Disk}
    (hok : (fileExec (.makeTemp tenantId) a h d).1 = .ok ()) : ∃ drawn,
      (fileExec (.makeTemp tenantId) a h d).2.1 = .temp tenantId drawn d.next ∧
        (fileExec (.makeTemp tenantId) a h d).2.2.data d.next = [] := by
  cases hrefusal : a.refusal with
  | some reason =>
    simp only [fileExec, refusable, hrefusal] at hok
    cases hok
  | none =>
    simp only [fileExec, refusable, hrefusal] at hok ⊢
    split at hok
    next hdir =>
      rw [if_pos hdir]
      split at hok
      next drawn hfind => exact ⟨drawn, rfl, Disk.create_data_same⟩
      next => cases hok
    next => cases hok

/-- A call that fails fails the operation, and leaves the documents as they are. -/
theorem fails {o : Op} {next : Except Exn o.Res → Service γ} {fo : FileOp} {v : Machine}
    {a : DiskAnswer} {e : Raised} (ho : fo.quiet = true)
    (hrefused : ∀ message s, exec o { refusal := some message } session s =
      (.error (.osError message), session, s)) (hvalid : v.disk.Valid) (hfits : h.Fits v.disk)
    (he : (fileExec fo a h v.disk).1 = .error e) :
    Follows exec {(session, .op o next)} v.view (session, next (.error e.toExn))
      (Machine.view ⟨v.store, (fileExec fo a h v.disk).2.2⟩) := by
  obtain ⟨message, hmessage⟩ := fileExec_error he
  rw [hmessage, view_of_files (fileExec_files ho hvalid hfits)]
  exact refused next (hrefused message _)

/-- A call before anything is decided: the operation fails, or goes on. -/
theorem first {o : Op} {next : Except Exn o.Res → Service γ} {fo : FileOp}
    {rest : fo.Res → MachineProgram o.Res} (ho : fo.quiet = true)
    (hrefused : ∀ message s, exec o { refusal := some message } session s =
      (.error (.osError message), session, s))
    (hrest : ∀ v : Machine, ∀ a r, v.disk.Valid → h.Fits v.disk → h.Spares m.disk v.disk →
      (fileExec fo a h v.disk).1 = .ok r →
      machine.Carries (rest r) {(session, .op o next)} (session, (fileExec fo a h v.disk).2.1)
        ⟨v.store, (fileExec fo a h v.disk).2.2⟩ (Answered next)) :
    machine.Carries ((diskCall fo).bind rest) {(session, .op o next)} (session, h) m
      (Answered next) := by
  refine call fun v a hvalid hfits hspares => ?_
  cases hres : (fileExec fo a h v.disk).1 with
  | error e =>
    refine ⟨{(session, next (.error e.toExn))}, Set.singleton_nonempty _, ?_, rfl⟩
    rintro x rfl
    exact fails ho hrefused hvalid hfits hres
  | ok r =>
    refine ⟨{(session, .op o next)}, Set.singleton_nonempty _, fun x hx => .inl ⟨hx, ?_⟩, ?_⟩
    · exact view_of_files (fileExec_files ho hvalid hfits)
    · exact hrest v a r hvalid hfits hspares hres

/-- The call that ends a failed save: whatever becomes of it, the documents are as they were. -/
theorem cleanup {o : Op} {next : Except Exn o.Res → Service γ} {e : Raised} {message : Str}
    (hrefused : ∀ message s, exec o { refusal := some message } session s =
      (.error (.osError message), session, s)) (he : e.toExn = .osError message) :
    machine.Carries ((diskCall .unlinkTemp).bind fun _ => (.raise e : MachineProgram o.Res))
      {(session, .op o next)} (session, h) m (Answered next) := by
  refine call fun v a hvalid hfits _ => ?_
  cases hres : (fileExec .unlinkTemp a h v.disk).1 with
  | error e' =>
    refine ⟨{(session, next (.error e'.toExn))}, Set.singleton_nonempty _, ?_, rfl⟩
    rintro x rfl
    exact fails rfl hrefused hvalid hfits hres
  | ok r =>
    refine ⟨{(session, next (.error e.toExn))}, Set.singleton_nonempty _, ?_, rfl⟩
    rintro x rfl
    rw [he, view_of_files (fileExec_files rfl hvalid hfits)]
    exact refused next (hrefused message _)

theorem save_refused {message : Str} {s : Store} :
    exec (.saveFile tenantId sha256 content) { refusal := some message } session s =
      (.error (.osError message), session, s) := rfl

/-- The `try` block of a save, and what follows its exceptions. -/
theorem tryWrite_carries {next : Except Exn Unit → Service γ} {drawn : Str} {file : Nat}
    (hempty : m.disk.data file = []) :
    machine.Carries (((withFile (writeAll content.length content)).bind fun _ =>
        diskCall (.replace tenantId sha256)).tryCatch fun e =>
          (diskCall .unlinkTemp).bind fun _ => .raise e)
      {(session, .op (.saveFile tenantId sha256 content) next)} (session, .temp tenantId drawn file) m
      (Answered (o := .saveFile tenantId sha256 content) next) := by
  have hwrite : machine.Carries (writeAll content.length content)
      {(session, .op (.saveFile tenantId sha256 content) next)} (session, .temp tenantId drawn file) m
      (Wrote _ session (.temp tenantId drawn file) file (m.disk.data file ++ content)) :=
    writeAll_carries (Set.singleton_nonempty _) (Nat.le_refl content.length)
  rw [hempty] at hwrite
  refine Carries.tryCatch (Carries.bind ((withFile_wrote (Set.singleton_nonempty _) hwrite).mono ?_))
  rintro res S l w ⟨rfl, rfl, hdata, herror⟩
  cases res with
  | error e =>
    obtain ⟨message, hmessage⟩ := herror e rfl
    exact cleanup (o := .saveFile tenantId sha256 content) (fun _ _ => save_refused) hmessage
  | ok _ =>
    refine call fun x b hvalid hfits hspares => ?_
    have hcontent : x.disk.data file = content := Eq.trans hspares (hdata rfl)
    rcases replace_files tenantId sha256 b hfits with
      ⟨hres, hfiles⟩ | ⟨⟨e, hres⟩, hsame⟩
    · rw [hres]
      refine ⟨{(session, next (.ok ()))}, Set.singleton_nonempty _, ?_, rfl⟩
      rintro y rfl
      refine .inr ⟨session, .saveFile tenantId sha256 content, next, {}, rfl, ?_, rfl⟩
      show x.view.setFile tenantId sha256 (some content) = Machine.view ⟨x.store, _⟩
      refine congrArg (fun files => { x.store with files := files }) ?_
      rw [hfiles, hcontent]
      rfl
    · obtain ⟨message, hmessage⟩ := fileExec_error hres
      rw [hres, hsame]
      refine ⟨_, Set.singleton_nonempty _, fun y hy => .inl ⟨hy, rfl⟩, ?_⟩
      exact cleanup (o := .saveFile tenantId sha256 content) (fun _ _ => save_refused) hmessage

/-- A document appears whole, or not at all. -/
theorem save_carries {next : Except Exn Unit → Service γ} :
    machine.Carries (saveDocument tenantId sha256 content)
      {(session, .op (.saveFile tenantId sha256 content) next)} (session, h) m
      (Answered (o := .saveFile tenantId sha256 content) next) := by
  refine first (o := .saveFile tenantId sha256 content) rfl (fun _ _ => save_refused) ?_
  intro v a _ _ _ _ _
  refine first (o := .saveFile tenantId sha256 content) rfl (fun _ _ => save_refused) ?_
  intro w b _ _ _ _ hok
  obtain ⟨drawn, hhandle, hempty⟩ := makeTemp_ok hok
  rw [hhandle]
  exact tryWrite_carries hempty

/-! ## Deleting and reading -/

theorem unlink_cases (tenantId : Uuid) (sha256 : Str) (a : DiskAnswer) (h : Handle) (d : Disk) :
    (∃ reason, fileExec (.unlink tenantId sha256) a h d = (.error (.exn (.osError reason)), h, d)) ∨
      ((d.files tenantId sha256).isSome ∧ fileExec (.unlink tenantId sha256) a h d =
        (.ok (), h, d.setEntry tenantId (.stored sha256) none)) ∨
      (d.files tenantId sha256 = none ∧ ∃ message, fileExec (.unlink tenantId sha256) a h d =
        (.error (.fileNotFound message), h, d)) := by
  cases hrefusal : a.refusal with
  | some reason => exact .inl ⟨reason, by simp only [fileExec, refusable, hrefusal]⟩
  | none =>
    refine .inr ?_
    cases hentry : d.entries tenantId (.stored sha256) with
    | some file =>
      refine .inl ⟨by simp [Disk.files, hentry], ?_⟩
      simp [fileExec, refusable, hrefusal, hentry]
    | none =>
      refine .inr ⟨by simp [Disk.files, hentry], Store.missingFileMessage tenantId sha256, ?_⟩
      simp only [fileExec, refusable, hrefusal, hentry, Option.isSome_none, Bool.false_eq_true,
        if_false]

theorem delete_carries {next : Except Exn Bool → Service γ} :
    machine.Carries (deleteDocument tenantId sha256)
      {(session, .op (.unlinkFile tenantId sha256) next)} (session, h) m
      (Answered (o := .unlinkFile tenantId sha256) next) := by
  refine call (o := .unlink tenantId sha256) fun v a hvalid hfits _ => ?_
  rcases unlink_cases tenantId sha256 a h v.disk with
    ⟨reason, hexec⟩ | ⟨hsome, hexec⟩ | ⟨hnone, message, hexec⟩
  · rw [hexec]
    refine ⟨{(session, next (.error (.osError reason)))}, Set.singleton_nonempty _, ?_, rfl⟩
    rintro x rfl
    exact refused (o := .unlinkFile tenantId sha256) next rfl
  · rw [hexec]
    refine ⟨{(session, next (.ok true))}, Set.singleton_nonempty _, ?_, rfl⟩
    rintro x rfl
    refine .inr ⟨session, .unlinkFile tenantId sha256, next, {}, rfl, ?_, ?_⟩
    · show v.view.setFile tenantId sha256 none = Machine.view ⟨v.store, _⟩
      refine congrArg (fun files => { v.store with files := files }) ?_
      funext tenant sha
      show (if _ then _ else _) =
        ((v.disk.setEntry tenantId (.stored sha256) none).entries tenant (.stored sha)).map v.disk.data
      rw [Disk.setEntry_entries]
      by_cases hname : tenant = tenantId ∧ sha = sha256
      · rw [if_pos hname, if_pos ⟨hname.1, by rw [hname.2]⟩]
        rfl
      · rw [if_neg hname, if_neg (fun h => hname ⟨h.1, Name.stored.inj h.2⟩)]
        rfl
    · show _ = (session, next (.ok (v.disk.files tenantId sha256).isSome))
      rw [hsome]
  · rw [hexec]
    refine ⟨{(session, next (.ok false))}, Set.singleton_nonempty _, ?_, rfl⟩
    rintro x rfl
    refine .inr ⟨session, .unlinkFile tenantId sha256, next, {}, rfl, ?_, ?_⟩
    · show v.view.setFile tenantId sha256 none = v.view
      refine congrArg (fun files => { v.store with files := files }) ?_
      funext tenant sha
      show (if _ then _ else v.disk.files tenant sha) = v.disk.files tenant sha
      split
      next hname => rw [hname.1, hname.2, hnone]
      next => rfl
    · show _ = (session, next (.ok (v.disk.files tenantId sha256).isSome))
      rw [hnone]
      rfl

/-- The thread reads its file, and has in the end read what is left from `offset` on. -/
def Read (S₀ : Possible Session Op Op.Res Exn γ) (session : Session) (file : Nat) (left : Bytes)
    (res : Except Raised Bytes) (S : Possible Session Op Op.Res Exn γ) (l : Session × Handle)
    (_ : Machine) : Prop :=
  S = S₀ ∧ (∃ offset, l = (session, .reading file offset)) ∧ (∀ bytes, res = .ok bytes → bytes = left) ∧
    ∀ e, res = .error e → ∃ message, e.toExn = .osError message

theorem read_cases (file offset : Nat) (a : DiskAnswer) (d : Disk) :
    (∃ e, fileExec .read a (.reading file offset) d = (.error e, .reading file offset, d)) ∨
      fileExec .read a (.reading file offset) d =
        (.ok (((d.data file).drop offset).take (a.count + 1)),
          .reading file (offset + (((d.data file).drop offset).take (a.count + 1)).length), d) := by
  cases hrefusal : a.refusal with
  | some reason => exact .inl ⟨_, by simp only [fileExec, refusable, hrefusal]; rfl⟩
  | none => exact .inr (by simp only [fileExec, refusable, hrefusal])

theorem readAll_carries {file fuel offset : Nat} (hne : S.Nonempty)
    (hcontent : m.disk.data file = content) (hfuel : content.length - offset < fuel) :
    machine.Carries (readAll fuel) S (session, .reading file offset) m
      (Read S session file (content.drop offset)) := by
  induction fuel generalizing offset m with
  | zero => omega
  | succ fuel ih =>
    refine quiet rfl hne fun v a hvalid hfits hspares => ?_
    have hsame : v.disk.data file = content := Eq.trans hspares hcontent
    rcases read_cases file offset a v.disk with ⟨e, hexec⟩ | hexec
    · obtain ⟨message, hmessage⟩ := fileExec_error (congrArg Prod.fst hexec)
      rw [hexec]
      exact ⟨rfl, ⟨offset, rfl⟩, fun bytes h => (by cases h), fun e' he => by cases he; exact ⟨_, hmessage⟩⟩
    · rw [hexec, hsame]
      generalize hchunk : (content.drop offset).take (a.count + 1) = chunk
      obtain ⟨tail, htail⟩ : chunk <+: content.drop offset := hchunk ▸ List.take_prefix _ _
      show machine.Carries (if chunk = [] then .ret [] else
        (readAll fuel).bind fun rest => .ret (chunk ++ rest)) _ _ _ _
      by_cases hnil : chunk = []
      · rw [if_pos hnil]
        have hend : content.drop offset = [] := by
          rw [← hchunk] at hnil
          simpa using hnil
        refine ⟨rfl, ⟨_, rfl⟩, fun bytes h => ?_, fun e' he => by cases he⟩
        cases h
        exact hend.symm
      · rw [if_neg hnil]
        have hpos := List.length_pos_iff.mpr hnil
        have hlength := congrArg List.length htail
        rw [List.length_append, List.length_drop] at hlength
        have hshorter : content.length - (offset + chunk.length) < fuel := by omega
        have hrest := ih (m := ⟨v.store, v.disk⟩) hsame hshorter
        rw [← List.drop_drop, ← htail, List.drop_left] at hrest
        refine Carries.bind (hrest.mono ?_)
        rintro res S' l w ⟨rfl, hl, hok, herror⟩
        cases res with
        | error e => exact ⟨rfl, hl, fun bytes h => (by cases h), herror⟩
        | ok rest =>
          refine ⟨rfl, hl, fun bytes h => ?_, fun e' he => by cases he⟩
          cases h
          rw [hok rest rfl, htail]

/-- What a read may be in the system once its file is open: it has the content, or fails. -/
def Opened (next : Except Exn Bytes → Service γ) (session : Session) (content : Bytes) :
    Possible Session Op Op.Res Exn γ :=
  {x | x = (session, next (.ok content)) ∨ ∃ message, x = (session, next (.error (.osError message)))}

/-- The last call of a read tells which. -/
theorem closeRead_carries {next : Except Exn Bytes → Service γ} {file offset : Nat}
    {res : Except Raised Bytes} (hok : ∀ bytes, res = .ok bytes → bytes = content)
    (herror : ∀ e, res = .error e → ∃ message, e.toExn = .osError message) :
    machine.Carries ((diskCall .close).bind fun _ => Lib.Prog.ofResult res)
      (Opened next session content) (session, .reading file offset) m
      (Answered (o := .readFile tenantId sha256) next) := by
  refine call fun v a hvalid hfits _ => ?_
  have hview := view_of_files (v := v) (fileExec_files (o := .close) (a := a) rfl hvalid hfits)
  have hfailed : ∀ e : Raised, (∃ message, e.toExn = .osError message) →
      (session, next (.error e.toExn)) ∈ Opened next session content := by
    rintro e ⟨message, hmessage⟩
    exact .inr ⟨message, by rw [hmessage]⟩
  cases hres : (fileExec .close a (.reading file offset) v.disk).1 with
  | error e =>
    refine ⟨{(session, next (.error e.toExn))}, Set.singleton_nonempty _, ?_, rfl⟩
    rintro x rfl
    exact .inl ⟨hfailed e (fileExec_error hres), hview⟩
  | ok _ =>
    cases res with
    | error e =>
      refine ⟨{(session, next (.error e.toExn))}, Set.singleton_nonempty _, ?_, rfl⟩
      rintro x rfl
      exact .inl ⟨hfailed e (herror e rfl), hview⟩
    | ok bytes =>
      obtain rfl := hok bytes rfl
      refine ⟨{(session, next (.ok bytes))}, Set.singleton_nonempty _, ?_, rfl⟩
      rintro x rfl
      exact .inl ⟨.inl rfl, hview⟩

theorem open_cases (tenantId : Uuid) (sha256 : Str) (a : DiskAnswer) (h : Handle) (d : Disk) :
    (∃ reason, fileExec (.openRead tenantId sha256) a h d = (.error (.exn (.osError reason)), h, d)) ∨
      (∃ file, d.files tenantId sha256 = some (d.data file) ∧
        fileExec (.openRead tenantId sha256) a h d = (.ok (), .reading file 0, d)) ∨
      (d.files tenantId sha256 = none ∧ fileExec (.openRead tenantId sha256) a h d =
        (.error (.fileNotFound (Store.missingFileMessage tenantId sha256)), h, d)) := by
  cases hrefusal : a.refusal with
  | some reason => exact .inl ⟨reason, by simp only [fileExec, refusable, hrefusal]⟩
  | none =>
    refine .inr ?_
    cases hentry : d.entries tenantId (.stored sha256) with
    | some file =>
      refine .inl ⟨file, by simp [Disk.files, hentry], ?_⟩
      simp [fileExec, refusable, hrefusal, hentry]
    | none =>
      refine .inr ⟨by simp [Disk.files, hentry], ?_⟩
      simp [fileExec, refusable, hrefusal, hentry]

theorem readBody_carries {file : Nat} (hne : S.Nonempty) (hcontent : m.disk.data file = content) :
    machine.Carries ((diskCall .fileSize).bind fun size => readAll (size + 1)) S
      (session, .reading file 0) m (Read S session file content) := by
  refine quiet rfl hne fun v a hvalid hfits hspares => ?_
  have hsame : v.disk.data file = content := Eq.trans hspares hcontent
  cases hrefusal : a.refusal with
  | some reason =>
    have hexec : fileExec .fileSize a (.reading file 0) v.disk =
        (.error (.exn (.osError reason)), .reading file 0, v.disk) := by
      simp only [fileExec, refusable, hrefusal]
    rw [hexec]
    exact ⟨rfl, ⟨0, rfl⟩, fun bytes h => (by cases h), fun e he => by cases he; exact ⟨reason, rfl⟩⟩
  | none =>
    have hexec : fileExec .fileSize a (.reading file 0) v.disk =
        (.ok content.length, .reading file 0, v.disk) := by
      simp only [fileExec, refusable, hrefusal, hsame]
    rw [hexec]
    exact readAll_carries hne hsame (Nat.lt_succ_self _)

theorem readFile_view (tenantId : Uuid) (sha256 : Str) (session : Session) (v : Machine) :
    exec (.readFile tenantId sha256) {} session v.view =
      (match v.disk.files tenantId sha256 with
      | some content => .ok content
      | none => .error (.osError (Store.missingFileMessage tenantId sha256)), session, v.view) := by
  show fileCall (Store.readFile tenantId sha256) {} session v.view = _
  unfold fileCall Store.readFile
  rw [show v.view.files tenantId sha256 = v.disk.files tenantId sha256 from rfl]
  cases v.disk.files tenantId sha256 <;> rfl

/-- A read has what was there when it opened the file. -/
theorem read_carries {next : Except Exn Bytes → Service γ} :
    machine.Carries (readBytes tenantId sha256)
      {(session, .op (.readFile tenantId sha256) next)} (session, h) m
      (Answered (o := .readFile tenantId sha256) next) := by
  refine call (o := .openRead tenantId sha256) fun v a hvalid hfits _ => ?_
  have hread := readFile_view tenantId sha256 session v
  rcases open_cases tenantId sha256 a h v.disk with
    ⟨reason, hexec⟩ | ⟨file, hfile, hexec⟩ | ⟨hnone, hexec⟩
  · rw [hexec]
    refine ⟨{(session, next (.error (.osError reason)))}, Set.singleton_nonempty _, ?_, rfl⟩
    rintro x rfl
    exact refused (o := .readFile tenantId sha256) next rfl
  · rw [hexec]
    rw [hfile] at hread
    refine ⟨Opened next session (v.disk.data file), ⟨_, .inl rfl⟩, ?_, ?_⟩
    · rintro x (rfl | ⟨message, rfl⟩)
      · exact .inr ⟨session, .readFile tenantId sha256, next, {}, rfl, by rw [hread], by rw [hread]⟩
      · exact refused (o := .readFile tenantId sha256) next rfl
    · refine Carries.attempt_bind.mpr ((readBody_carries ⟨_, .inl rfl⟩ rfl).mono ?_)
      rintro res S' l w ⟨rfl, ⟨offset, rfl⟩, hok, herror⟩
      exact closeRead_carries hok herror
  · rw [hexec]
    rw [hnone] at hread
    refine ⟨{(session, next (.error (.osError (Store.missingFileMessage tenantId sha256))))},
      Set.singleton_nonempty _, ?_, rfl⟩
    rintro x rfl
    exact .inr ⟨session, .readFile tenantId sha256, next, {}, rfl, by rw [hread], by rw [hread]⟩

theorem isFile_carries {next : Except Exn Bool → Service γ} :
    machine.Carries (diskCall (.isFile tenantId sha256))
      {(session, .op (.isFile tenantId sha256) next)} (session, h) m
      (Answered (o := .isFile tenantId sha256) next) := by
  refine call fun v a _ _ _ => ?_
  refine ⟨{(session, next (.ok (v.disk.entries tenantId (.stored sha256)).isSome))},
    Set.singleton_nonempty _, ?_, rfl⟩
  rintro x rfl
  refine .inr ⟨session, .isFile tenantId sha256, next, {}, rfl, rfl, ?_⟩
  show _ = (session, next (.ok ((v.disk.entries tenantId (.stored sha256)).map v.disk.data).isSome))
  rw [Option.isSome_map]

/-! ## The machine and the system -/

theorem mapError_toExn {β : Type} (res : Except Exn β) :
    (res.mapError Raised.exn).mapError Raised.toExn = res := by
  cases res <;> rfl

/-- The operations that have nothing to do with files. -/
theorem base_carries {o : Op} (ho : usesFiles o = false) {next : Except Exn o.Res → Service γ} :
    machine.Carries (Lib.Prog.call (MachineOp.base o)) {(session, .op o next)} (session, h) m
      (Answered next) := by
  rintro v a _ - - - rfl
  have hframed : exec o a.toAnswer session v.view = ((exec o a.toAnswer session v.store).1,
      (exec o a.toAnswer session v.store).2.1,
      withFiles v.disk.files (exec o a.toAnswer session v.store).2.2) := exec_withFiles ho
  refine ⟨_, {((exec o a.toAnswer session v.store).2.1, next (exec o a.toAnswer session v.store).1)},
    rfl, Set.singleton_nonempty _, ?_, ?_⟩
  · rintro x rfl
    exact .inr ⟨session, o, next, a.toAnswer, rfl, by rw [hframed]; rfl, by rw [hframed]⟩
  · show machine.Carries (.ofResult ((exec o a.toAnswer session v.store).1.mapError Raised.exn))
      _ _ _ _
    have hres := mapError_toExn (exec o a.toAnswer session v.store).1
    generalize (exec o a.toAnswer session v.store).1 = res at hres ⊢
    cases res <;> exact rfl

theorem access_carries {o : Op} {next : Except Exn o.Res → Service γ} :
    machine.Carries (access o) {(session, .op o next)} (session, h) m (Answered next) := by
  cases o with
  | saveFile tenantId sha256 content => exact save_carries
  | unlinkFile tenantId sha256 => exact delete_carries
  | readFile tenantId sha256 => exact read_carries
  | isFile tenantId sha256 => exact isFile_carries
  | _ => exact base_carries rfl

/-- Every service, its files on the disk. -/
theorem onDisk_carries {program : Service γ} :
    machine.Carries (onDisk program) {(session, program)} (session, h) m
      fun res S _ _ => Ends Raised.toExn res S := by
  induction program generalizing session h m with
  | ret r =>
    rintro x rfl
    rfl
  | raise e =>
    rintro x rfl
    rfl
  | op o next ih =>
    refine Carries.attempt_bind.mpr (access_carries.mono ?_)
    rintro res S ⟨session', h'⟩ t rfl
    exact ih _

variable {ι : Type}

theorem start_matches {programs : ι → Option (Service Unit)} (hvalid : m.disk.Valid) :
    machine.Matches Raised.toExn (start m programs) m.view
      fun i => (programs i).map fun program => {((⟨false⟩ : Session), program)} where
  inv := hvalid
  abs := rfl
  fits i l p hi := by
    obtain ⟨program, -, hl⟩ := Option.map_eq_some_iff.mp hi
    cases hl
    trivial
  apart i j _ l p l' q hi hj := by
    obtain ⟨program, -, hl⟩ := Option.map_eq_some_iff.mp hi
    cases hl
    trivial
  carries i l p hi := by
    obtain ⟨program, hprogram, hl⟩ := Option.map_eq_some_iff.mp hi
    cases hl
    exact ⟨_, by rw [hprogram]; rfl, Set.singleton_nonempty _, onDisk_carries⟩
  crashed i hi := Option.map_eq_none_iff.mpr (Option.map_eq_none_iff.mp hi)

variable [DecidableEq ι]

/-- A run of the machine, and the run of the system that goes with it. -/
theorem shadows {programs : ι → Option (Service Unit)} {turns : List (Lib.Turn ι DiskAnswer Time)}
    {c : Lib.Pool ι (Session × Handle) Machine MachineOp MachineOp.Res Raised Unit}
    (hvalid : m.disk.Valid) (hrun : Lib.run step (start m programs) turns = some c) :
    ∃ turns' : List (Option (Turn ι)), turns.Forall₂ Lib.Refinement.Serves turns' ∧
      ∀ k d, Lib.run step (start m programs) (turns.take k) = some d →
        ∃ w, Lib.run System.step (System.start m.view programs) (turns'.take k).reduceOption =
          some w ∧ machine.Agree Raised.toExn d w := by
  obtain ⟨v, turns', hv, hserves, hshadow⟩ := (start_matches hvalid).shadows hrun
  have hstart : (⟨m.view, v⟩ : System ι) = System.start m.view programs := by
    refine congrArg (Lib.Pool.mk m.view) (funext fun i => ?_)
    have hi := hv i
    beta_reduce at hi
    cases hprogram : programs i with
    | none =>
      rw [hprogram] at hi
      exact hi
    | some program =>
      rw [hprogram] at hi
      obtain ⟨x, rfl, hx⟩ := hi
      exact hx
  refine ⟨turns', hserves, fun k d hd => ?_⟩
  rw [← hstart]
  exact hshadow k d hd

/-- What holds of the stores of all runs of the system holds of what the disk shows. -/
theorem view_run {programs : ι → Option (Service Unit)} {turns : List (Lib.Turn ι DiskAnswer Time)}
    {c : Lib.Pool ι (Session × Handle) Machine MachineOp MachineOp.Res Raised Unit} {P : Store → Prop}
    (hvalid : m.disk.Valid) (hrun : Lib.run step (start m programs) turns = some c)
    (hsystem : ∀ turns' w, Lib.run System.step (System.start m.view programs) turns' = some w →
      P w.store) : P c.store.view := by
  obtain ⟨turns', -, hshadow⟩ := shadows hvalid hrun
  obtain ⟨w, hw, hagree⟩ := hshadow turns.length c (by rwa [List.take_length])
  have habs : w.store = c.store.view := hagree.abs
  rw [← habs]
  exact hsystem _ w hw

/-- Turn by turn, a run of the machine is a run of the system: at every moment the system holds what
the machine does, and the parties that are over have ended as they do on the machine. -/
theorem storage_refines {programs : ι → Option (Service Unit)}
    {turns : List (Lib.Turn ι DiskAnswer Time)}
    {c : Lib.Pool ι (Session × Handle) Machine MachineOp MachineOp.Res Raised Unit}
    (hvalid : m.disk.Valid) (hrun : Lib.run step (start m programs) turns = some c) :
    ∃ turns' : List (Option (Turn ι)), turns.Forall₂ Lib.Refinement.Serves turns' ∧
      ∀ k d, Lib.run step (start m programs) (turns.take k) = some d →
        ∃ w, Lib.run System.step (System.start m.view programs) (turns'.take k).reduceOption =
          some w ∧ machine.Agree Raised.toExn d w :=
  shadows hvalid hrun

/-- A directory without documents. -/
def emptyMachine : Machine := ⟨.empty 0, ⟨fun _ => false, fun _ _ => none, fun _ => [], 0⟩⟩

/-- A thread saves three bytes, of which one write takes two; another reads them byte by byte. -/
def saveAndRead : Fin 2 → Option (Service Unit)
  | 0 => some (perform (.saveFile 7 "ab".toList [1, 2, 3]))
  | 1 => some ((perform (.readFile 7 "ab".toList)).bind fun _ => .ret ())

def savedAndRead : List (Lib.Turn (Fin 2) DiskAnswer Time) :=
  [.act 0 {}, .act 0 { drawn := ["tmpx".toList] }, .act 0 { count := 1 }, .drift 5, .act 0 {},
    .act 0 {}, .act 0 {}, .act 1 {}, .act 1 {}, .act 1 {}, .act 1 {}, .act 1 {}, .act 1 {}, .act 1 {}]

theorem storage_refines_saveAndRead : ∃ c, Lib.run step (start emptyMachine saveAndRead) savedAndRead =
    some c ∧ ∃ turns' : List (Option (Turn (Fin 2))),
      savedAndRead.Forall₂ Lib.Refinement.Serves turns' ∧
      ∀ k d, Lib.run step (start emptyMachine saveAndRead) (savedAndRead.take k) = some d →
        ∃ w, Lib.run System.step (System.start emptyMachine.view saveAndRead)
          (turns'.take k).reduceOption = some w ∧ machine.Agree Raised.toExn d w := by
  obtain ⟨c, hc⟩ : ∃ c, Lib.run step (start emptyMachine saveAndRead) savedAndRead = some c :=
    ⟨_, rfl⟩
  exact ⟨c, hc, storage_refines (fun _ _ _ h => by cases h) hc⟩

end ContractIntel.Storage
