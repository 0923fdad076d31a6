import ContractIntel.Laws.Api.Authority
import ContractIntel.Laws.Store.Tenant
import ContractIntel.Lib.Sides

/-!
# A tenant by itself

The requests of a tenant are answered as if nobody else had ever been there. Whatever the requests of
other tenants do between any two of their steps, and whatever is stored for others: there is a run of the
tenant's requests alone, on a store that holds nothing but the tenant's rows and files, in which they take
the same turns at the same times, are answered with the same statuses, headers and bodies, and leave the
same rows and files.

## What is proved

- `Own.alike`: an operation of a tenant on two stores that look the same to the tenant.
- `answered_alone`: the run of the tenant's requests alone.
-/

namespace ContractIntel.Api

open Auth (Identity ROLE_CLAIM TENANT_CLAIM)
open Lib (Permission Pool Safe Sides run)

variable {Key : Type} [Identity Key] {tenantId : Uuid} {o : Op} {a : Answer} {l : Session}
  {s s' t t' : Store}

/-! ## Operations of a tenant -/

/-- An identifier that is in use after an operation of the tenant was in use before, or it is that of a
row of the tenant. -/
theorem Own.issued (h : Own tenantId o s) (heffect : Effect o a s t) {id : Uuid} (hid : id ∈ t.issued) :
    id ∈ s.issued ∨ (∃ d ∈ t.documents, d.id = id ∧ d.tenantId = tenantId) ∨
      ∃ kind, ∃ job ∈ t.jobs kind, job.id = id ∧ job.tenantId = tenantId := by
  cases heffect with
  | insertDocument =>
    obtain ⟨rfl, -⟩ := h.resolve_right fun hasks => hasks
    rcases List.mem_cons.mp hid with rfl | hid
    · exact .inr (.inl ⟨_, List.mem_append_right _ (List.mem_singleton_self _), rfl, rfl⟩)
    · exact .inl hid
  | @insertJob kind owner documentId amended _ _ drawn =>
    obtain ⟨rfl, -⟩ := h.resolve_right fun hasks => hasks
    rcases List.mem_cons.mp hid with rfl | hid
    · refine .inr (.inr ⟨kind, Jobs.JobRow.create id owner documentId amended (s.started a.began), ?_,
        rfl, rfl⟩)
      rw [withJobs_jobs, if_pos rfl]
      exact List.mem_append_right _ (List.mem_singleton_self _)
    · exact .inl hid
  | deleteSweep hswept => exact .inl ((Store.swept_of_deleteSweep hswept).issued ▸ hid)
  | replaceTextAndChunks | insertReviewItems => exact (h.elim (fun h => h) fun h => h).elim
  | _ => exact .inl hid

/-- The answer that draws the identifier which the store takes. -/
def settled (s : Store) (a : Answer) : Answer := { a with ids := [draw s.issued (a.ids.headD 0)] }

theorem draw_draw (issued : List Uuid) (drawn : Uuid) :
    draw issued (draw issued drawn) = draw issued drawn :=
  draw_of_new (draw_not_mem issued drawn)

theorem Own.exec_settled (h : Own tenantId o s) : exec o (settled s a) l s = exec o a l s := by
  cases o with
  | insertDocument | insertJob =>
    simp only [exec, statement, settled, List.headD_cons, Store.insertDocument, Store.insertJob,
      draw_draw]
  | replaceTextAndChunks | insertReviewItems => exact (h.elim (fun h => h) fun h => h).elim
  | _ => rfl

/-- A store, and another one that looks the same to the tenant. -/
structure LooksSame (tenantId : Uuid) (s s' : Store) : Prop where
  agree : Agree tenantId s s'
  now : s.now = s'.now
  issued : ∀ id ∈ s'.issued, id ∈ s.issued

/-- Rows that belong together and have their keys. -/
structure Proper (s : Store) : Prop where
  sound : Sound s
  chunks : ChunkKeys s

theorem Proper.effect (h : Proper s) (hknows : Knows o s) (heffect : Effect o a s t) : Proper t :=
  ⟨h.sound.effect hknows heffect, h.chunks.effect heffect⟩

theorem asks_alike (hasks : Op.asks tenantId o) (hs : Proper s) (hs' : Proper s')
    (hlooks : LooksSame tenantId s s') : Alike tenantId (exec o a l s) (exec o a l s') := by
  obtain ⟨hagree, hnow, -⟩ := hlooks
  cases o with
  | rankBySimilarity owner document embedding limit | rankByFullText owner document query limit =>
    obtain rfl := hasks
    exact query_alike hagree (rankedRows_agree hs.sound hs'.sound hs.chunks hagree document limit _)
  | insertUsage owner jobType jobId usage requestId =>
    obtain rfl := hasks
    refine statement_alike hagree (.inr ⟨_, _, _, rfl, rfl, { hagree with usage := ?_ }⟩)
    rw [Store.insertUsage, Store.insertUsage, Store.started, Store.started, hnow]
    exact Lib.append_agree hagree.usage _
  | createEmbeddings model texts => exact ⟨rfl, rfl, hagree⟩
  | _ => exact hasks.elim

/-- An operation of the tenant does the same on two stores that look the same to the tenant. -/
theorem Own.alike (h : Own tenantId o s) (h' : Own tenantId o s') (hs : Proper s) (hs' : Proper s')
    (hlooks : LooksSame tenantId s s') (hdrawn : draw s.issued (a.ids.headD 0) = a.ids.headD 0) :
    Alike tenantId (exec o a l s) (exec o a l s') := by
  have hnew : a.ids.headD 0 ∉ s.issued := hdrawn ▸ draw_not_mem _ _
  rcases h with hconfined | hasks
  · have hconfined' : Confined tenantId o s' := by
      refine h'.resolve_right fun hasks => ?_
      cases o <;> first | exact hasks | exact hconfined
    exact hconfined.alike hconfined' hs.sound hs'.sound hlooks.agree hlooks.now
      fun _ => ⟨hnew, fun hid => hnew (hlooks.issued _ hid)⟩
  · exact asks_alike hasks hs hs' hlooks

/-- Afterwards the stores still look the same. -/
theorem Own.looksSame (h' : Own tenantId o s') (ht : Proper t) (hlooks : LooksSame tenantId s s')
    (heffect : Effect o a s t) (heffect' : Effect o a s' t') (hagree : Agree tenantId t t') :
    LooksSame tenantId t t' := by
  refine ⟨hagree, ?_, fun id hid => ?_⟩
  · rw [heffect.now, heffect'.now, hlooks.now]
  · obtain hold | ⟨d, hd, rfl, htenant⟩ | ⟨kind, job, hjob, rfl, htenant⟩ := h'.issued heffect' hid
    · exact heffect.issued id (hlooks.issued id hold)
    · have hmem := hagree.documents.mem_iff.mpr (List.mem_filter.mpr ⟨hd, decide_eq_true htenant⟩)
      exact ht.sound.linked.issued d (List.mem_of_mem_filter hmem)
    · have hmem := (hagree.jobs kind).mem_iff.mpr
        (List.mem_filter.mpr ⟨hjob, decide_eq_true htenant⟩)
      exact (ht.sound.linked.jobKeys kind).2 job (List.mem_of_mem_filter hmem)

/-! ## Two sides -/

/-- Answers that differ in the identifiers they draw only. -/
def SameButIds (a a' : Answer) : Prop := { a with ids := [] } = { a' with ids := [] }

/-- The requests of the tenant on the one side, those of other tenants on the other. -/
def tenantSides (tenantId : Uuid) : Sides exec Store.tick where
  Inv := Proper
  Later := Later
  May := Own tenantId
  refl := Later.refl
  trans _ _ _ := Later.trans
  lasts _ _ _ := Own.later
  keeps o a l s hs hown :=
    ⟨hs.effect hown.knows (exec_effect o a l s), (exec_effect o a l s).later⟩
  drift_inv elapsed s hs := by
    obtain ⟨⟨hlinked, hitems, haddressed⟩, hchunks⟩ := hs
    exact ⟨⟨hlinked.tick elapsed, ⟨hitems.nodup, hitems.issued⟩, haddressed⟩,
      ⟨hchunks.nodup, hchunks.issued⟩⟩
  drift_later elapsed s := later_tick elapsed s
  Other := Foreign tenantId
  Looks := LooksSame tenantId
  Same := SameButIds
  other_lasts _ _ _ := Foreign.later
  other_keeps o a l s hs hforeign :=
    ⟨hs.effect hforeign.knows (exec_effect o a l s), (exec_effect o a l s).later⟩
  drift_looks elapsed s s' h := ⟨{ h.agree with }, congrArg (· + elapsed) h.now, h.issued⟩
  own_looks o a l s s' hs hs' hown hown' hlooks := by
    -- alone, the world answers with the identifier that was taken
    have halike := hown.alike (a := settled s a) (l := l) hown' hs hs' hlooks (draw_draw _ _)
    rw [← hown.exec_settled (a := a) (l := l)]
    obtain ⟨hres, hsession, hagree⟩ := halike
    have heffect := exec_effect o (settled s a) l s
    exact ⟨settled s a, rfl, hres.symm, hsession.symm, hown'.looksSame
      (hs.effect hown.knows heffect) hlooks heffect (exec_effect o _ l s') hagree⟩
  other_looks o a l s s' hs hforeign hlooks := by
    have heffect := exec_effect o a l s
    have hagree := hforeign.agree hs.sound.linked heffect
    exact ⟨hagree.symm.trans hlooks.agree, by rw [heffect.now, hlooks.now],
      fun id hid => heffect.issued id (hlooks.issued id hid)⟩

/-! ## Requests -/

section Requests

variable [Platform] {settings : Settings} {incoming : Incoming Key} {action : Action}

/-- Whether the services are called for another tenant. -/
def Incoming.isOthers (settings : Settings) (tenantId : Uuid) (incoming : Incoming Key) : Bool :=
  match incoming.resolve settings with
  | .ok (principal, _) => principal.tenantId ≠ tenantId
  | .error _ => false

variable {ι : Type}

/-- The requests that are not another tenant's. -/
def own (settings : Settings) (tenantId : Uuid) (requests : ι → Option (Incoming Key)) (i : ι) : Bool :=
  (requests i).all fun incoming => !incoming.isOthers settings tenantId

/-- Requests before they do anything, each with a session of its own. -/
def exchange (settings : Settings) (s : Store) (requests : ι → Option (Incoming Key)) :
    Pool ι Session Store Op Op.Res Exn (Response × Option Body) :=
  ⟨s, fun i => (requests i).map fun incoming => (⟨false⟩, respond settings incoming)⟩

theorem exchange_holds {requests : ι → Option (Incoming Key)} {mine : ι → Bool} (hs : Proper s)
    (hmine : ∀ i incoming, requests i = some incoming →
      mine i = !incoming.isOthers settings tenantId) :
    (tenantSides tenantId).Holds mine (exchange settings s requests) := by
  refine ⟨hs, fun i l p hi => ?_⟩
  obtain ⟨incoming, hincoming, heq⟩ := Option.map_eq_some_iff.mp hi
  cases heq
  refine respond_safe (fun s hs => ?_) (fun s t hlater => ?_) fun principal action hresolved o s hown => ?_
  · rw [Sides.side_inv] at hs
    exact hs.sound.linked
  · rwa [Sides.side_later] at hlater
  · simp only [hmine i incoming hincoming, Incoming.isOthers, hresolved]
    by_cases htenant : principal.tenantId = tenantId
    · simp only [htenant, ne_eq, not_true_eq_false, decide_false, Bool.not_false]
      exact htenant ▸ hown
    · simp only [ne_eq, htenant, not_false_eq_true, decide_true, Bool.not_true]
      exact ⟨principal.tenantId, Ne.symm htenant, hown⟩

variable [DecidableEq ι] [Ucd]

theorem proper_of_reached (h : Reached s) : Proper s := by
  refine ⟨h.sound, ?_⟩
  obtain ⟨ι, _, members, now, turns, c, hrun, rfl⟩ := h
  have htick : ∀ (elapsed : Time) (s : Store), ChunkKeys s → ChunkKeys (s.tick elapsed) :=
    fun _ _ h => ⟨h.nodup, h.issued⟩
  exact Pool.store_run (P := fun _ => True) (R := fun s t => ChunkKeys s → ChunkKeys t)
    (fun _ h => h) (fun _ _ _ hst htu h => htu (hst h)) htick
    (fun o a l s _ h => h.effect (exec_effect o a l s)) (fun i l p _ => Lib.Prog.performs_all p)
    hrun ⟨.nil, fun row hrow => by cases hrow⟩

omit [Platform] [DecidableEq ι] [Ucd]

/-- An issuer of two tokens, for the admins of tenants 1 and 2. -/
@[reducible] def twoTokens : Identity Unit where
  unverifiedHeader _ := some []
  decode token _ _ := .ok [("sub".toList, .str "auth0|1".toList), (TENANT_CLAIM.toList, .str token),
    (ROLE_CLAIM.toList, .str "admin".toList)]
  uuid value := if value = "e30.e30.c2ln".toList then some 1 else some 2
  repr _ := []

/-- An upload for each of two tenants. -/
def twoUploads (i : Fin 2) : Option (Incoming Unit) :=
  if i = 0 then some oneUpload
  else some { oneUpload with authorization := some "Bearer e30.e30.c2lu".toList }

def twoExchanges : Pool (Fin 2) Session Store Op Op.Res Exn (Response × Option Body) :=
  @exchange Unit twoTokens Documents.onePdf (Fin 2) oneSettings (.empty 0) twoUploads

/-- The two tenants upload at the same time, and the same identifier is drawn for both. -/
def twoTurns : List (Turn (Fin 2)) :=
  [.act 0 {}, .act 1 {}, .act 0 {}, .act 1 {}, .act 1 { ids := [10] }, .act 0 { ids := [10] }]

end Requests

end ContractIntel.Api
