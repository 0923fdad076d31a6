import ContractIntel.Laws.Api.Authority
import ContractIntel.Laws.Services.Provenance
import ContractIntel.Laws.Storage.Local

/-!
# What lies under the data directory

A deployment on a machine, its requests and workers taking turns call by call on the file system: what
lies under a content hash is, at every moment, a whole content with this hash.

## What is proved

- `Member.program_saves`: the members save contents under their digests.
- `addressed`: every document on the disk, in every run, with every crash.
-/

namespace ContractIntel.Api

open Auth (Identity)
open Lib.Prog (Performs)
open Storage (Machine)

variable {Key : Type} [Identity Key] [Platform] {settings : Settings} {Sent : Incoming Key → Prop}

theorem serve_saves {incoming : Incoming Key} (hsent : Sent incoming) :
    (serve settings incoming).Performs (Saves (Uploaded settings Sent)) := by
  obtain ⟨e, hrefused, -⟩ | ⟨principal, action, hresolved, hprincipal, hrole, haction⟩ :=
    resolve_cases settings incoming
  · rw [serve_of_error hrefused]
    trivial
  · rw [serve_of_ok hresolved]
    refine .bind (.attempt ?_) fun _ => .ret _
    cases action with
    | call work =>
      have hacts : Acts settings incoming principal work :=
        ⟨bears_of_getPrincipal hprincipal, (of_action haction).1 ▸ hrole, haction⟩
      refine .bind (work.program_saves.mono fun o _ hsaves => hsaves.mono ?_) fun _ => .ret _
      rintro _ content ⟨rfl, huploads⟩
      exact ⟨work, ⟨incoming, principal, hsent, hacts, rfl⟩, huploads⟩
    | search requestId query limit =>
      refine .bind ((search_performs _ _ _ _).mono fun o _ hasks tenant sha content ho => ?_)
        fun _ => .ret _
      subst ho
      cases hasks

/-- The members save what is uploaded, under its digest. -/
theorem Member.program_saves [Ucd] (worker : Worker.Settings) (member : Member Key)
    (hsent : ∀ incoming, member = .request incoming → Sent incoming) :
    (member.program settings worker).Performs (Saves (Uploaded settings Sent)) := by
  cases member with
  | request incoming => exact .bind (serve_saves (hsent incoming rfl)) fun _ => .ret _
  | worker rounds turn =>
    refine loop_performs (fun _ _ _ h => by cases h) (fun kind => ?_) rounds turn
    refine (runQueue_ingestion worker kind).mono fun o _ ho tenant sha content hsave => ?_
    subst hsave
    cases ho

/-- A deployment on a machine. -/
abbrev deploymentOnDisk [Ucd] {ι : Type} (settings : Settings) (worker : Worker.Settings) (m : Machine)
    (members : ι → Option (Member Key)) :=
  Storage.start m fun i => (members i).map (Member.program settings worker)

/-- Whatever the members of a deployment do on the file system, in whatever order, and wherever they
crash: at every moment every document on the disk is whole, its content's digest being its name, and
was saved before or has been uploaded on the authority of a token of its tenant. -/
theorem addressed [Ucd] {ι : Type} [DecidableEq ι] {worker : Worker.Settings} {m : Machine}
    {Before : Uuid → Parsing.Bytes → Prop} {members : ι → Option (Member Key)}
    {turns : List (Lib.Turn ι Storage.DiskAnswer Time)}
    {c : Lib.Pool ι (Session × Storage.Handle) Machine Storage.MachineOp Storage.MachineOp.Res
      Storage.Raised Unit}
    (hvalid : m.disk.Valid) (hstart : ByDigest Before m.disk.files)
    (hrun : Lib.run Storage.step (deploymentOnDisk settings worker m members) turns = some c) :
    ByDigest (SavedBy Before settings fun incoming => ∃ i, members i = some (.request incoming))
      c.store.disk.files := by
  let Saved := SavedBy Before settings fun incoming => ∃ i, members i = some (.request incoming)
  have hfirst : ByDigest Saved m.disk.files := fun tenantId sha256 content h =>
    (hstart tenantId sha256 content h).imp_right .inl
  refine Storage.view_run (P := fun s => ByDigest Saved s.files) hvalid hrun fun turns' w hw => ?_
  have htick : ∀ (elapsed : Time) (s : Store), ByDigest Saved s.files →
      ByDigest Saved (s.tick elapsed).files := fun _ _ h => h
  refine Lib.Pool.store_run (P := Saves Saved)
    (R := fun s t : Store => ByDigest Saved s.files → ByDigest Saved t.files) (fun _ h => h)
    (fun _ _ _ hst htu h => htu (hst h)) htick
    (fun o a l s ho h => byDigest_effect (exec_effect o a l s) ho h) ?_ hw hfirst
  intro i l p hi
  obtain ⟨program, hprogram, heq⟩ := Option.map_eq_some_iff.mp hi
  obtain ⟨member, hmember, rfl⟩ := Option.map_eq_some_iff.mp hprogram
  cases heq
  have hsaves : (member.program settings worker).Performs (Saves (Uploaded settings
      fun incoming => ∃ i, members i = some (.request incoming))) :=
    member.program_saves worker fun incoming h => ⟨i, h ▸ hmember⟩
  exact hsaves.mono fun o _ ho => ho.mono fun _ _ => .inr

omit [Identity Key] [Platform]

/-- An upload, its bytes written and put in their place. -/
theorem addressed_upload : ∃ c, @Lib.run _ _ (@Storage.step (Fin 1) _)
    (@deploymentOnDisk Unit oneToken Documents.onePdf Ucd.ascii (Fin 1) oneSettings oneWorker
      Storage.emptyMachine fun _ => some (.request oneUpload))
    [.act 0 {}, .act 0 {}, .act 0 { drawn := ["tmpx".toList] }, .act 0 { count := 9 }, .act 0 {},
      .act 0 {}] = some c ∧
    (c.store.disk.files 1 (Documents.onePdf.sha256 Documents.PDF_MAGIC)).isSome ∧
      @ByDigest Documents.onePdf (@SavedBy Unit oneToken Documents.onePdf (fun _ _ => False) oneSettings
        fun incoming => ∃ _ : Fin 1, some (Member.request oneUpload) = some (.request incoming))
        c.store.disk.files := by
  have hruns : ((@Lib.run _ _ (@Storage.step (Fin 1) _)
      (@deploymentOnDisk Unit oneToken Documents.onePdf Ucd.ascii (Fin 1) oneSettings oneWorker
        Storage.emptyMachine fun _ => some (.request oneUpload))
      [.act 0 {}, .act 0 {}, .act 0 { drawn := ["tmpx".toList] }, .act 0 { count := 9 }, .act 0 {},
        .act 0 {}]).map fun c =>
      (c.store.disk.files 1 (Documents.onePdf.sha256 Documents.PDF_MAGIC)).isSome) = some true := by
    decide +kernel
  obtain ⟨c, hc, hsome⟩ := Option.map_eq_some_iff.mp hruns
  exact ⟨c, hc, hsome, @addressed Unit oneToken Documents.onePdf _ Ucd.ascii _ _ _ _ _ _ _ _
    (fun _ _ _ h => by cases h) (fun _ _ _ h => by cases h) hc⟩

end ContractIntel.Api
