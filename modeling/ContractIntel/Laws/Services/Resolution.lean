import ContractIntel.Laws.Services.Documents
import ContractIntel.Laws.Services.ReviewQueue

/-!
# Who resolves an item

Any number of requests to resolve one item, in any order of their three steps. `Phase` says how far
the one resolution that can succeed has come; `Standing` what is left to do for each request in a
phase. The first guarded update of the owning tenant wins, and no other request changes anything
(`resolved_once`).
-/

namespace ContractIntel.ReviewQueue

open Lib (run Pool)

variable {ι : Type} {item : ReviewItemRow} {s t : Store}

/-- A request to resolve an item. -/
structure ResolveRequest where
  context : RequestContext
  tenantId : Uuid
  body : ReviewDispositionCreate

namespace ResolveRequest

/-- The party that sends it. -/
def party (r : ResolveRequest) (itemId : Uuid) : Party :=
  .resolveReviewItem r.context r.tenantId itemId r.body

/-- The audit row of a resolution. -/
def auditRow (r : ResolveRequest) (item : ReviewItemRow) (time : Time) : AuditRow where
  tenantId := r.tenantId
  actor := r.context.actor
  requestId := r.context.requestId
  action := "review_item.resolve".toList
  resourceType := "review_item".toList
  resourceId := some item.id
  detail := some (.obj [("disposition".toList, .str r.body.disposition.value),
    ("source".toList, .str (ReviewItemSource.value item.source))])
  createdAt := time

/-- What is left after the update. -/
def conclude (r : ResolveRequest) (itemId : Uuid) : Option ReviewItemRow → Service Unit
  | none => .raise (.reviewItemAlreadyResolvedError itemId)
  | some resolved =>
    (perform (.insertAudit r.tenantId r.context.actor r.context.requestId
      "review_item.resolve".toList "review_item".toList (some itemId)
      (some (.obj [("disposition".toList, .str r.body.disposition.value),
        ("source".toList, .str (ReviewItemSource.value resolved.source))])))).bind fun _ => .ret ()

/-- What is left after the fetch. -/
def update (r : ResolveRequest) (itemId : Uuid) : Service Unit :=
  (perform (.resolveReviewItem r.tenantId itemId r.body.disposition.status
    r.body.correctedValues)).bind (r.conclude itemId)

/-- What is left before the fetch. -/
def fetch (r : ResolveRequest) (itemId : Uuid) : Service Unit :=
  (perform (.findReviewItem r.tenantId itemId)).bind fun found =>
    (require (.reviewItemNotFoundError itemId) found).bind fun _ => r.update itemId

theorem program_eq [Ucd] [Platform] (r : ResolveRequest) (itemId : Uuid) :
    (r.party itemId).program = r.fetch itemId := by
  unfold party Party.program resolveReviewItem getReviewItem fetch update
  simp only [Lib.Prog.bind_eq, Lib.Prog.bind_assoc]
  congr 1
  ext found
  congr 1
  ext _
  congr 1
  ext resolved
  cases resolved with
  | none => rfl
  | some row => exact Lib.Prog.bind_assoc _ _ _

end ResolveRequest

/-- The error of a request that did not resolve the item. -/
def ResolveRequest.loss (r : ResolveRequest) (item : ReviewItemRow) : Exn :=
  if r.tenantId = item.tenantId then .reviewItemAlreadyResolvedError item.id
  else .reviewItemNotFoundError item.id

/-! ## Phases -/

/-- How far the resolution has come: no request has updated the item, one has, or its audit row is
written too. -/
inductive Phase (ι : Type) where
  | waiting
  | resolvedBy (winner : ι)
  | recordedBy (winner : ι)

def Phase.winner : Phase ι → Option ι
  | .waiting => none
  | .resolvedBy winner | .recordedBy winner => some winner

/-- The item after the update of a request. -/
def ResolveRequest.resolve (r : ResolveRequest) (item : ReviewItemRow) (time : Time)
    (items : List ReviewItemRow) : List ReviewItemRow :=
  items.map fun other =>
    if other.id = item.id then
      Store.resolved r.body.disposition.status r.body.correctedValues time other
    else other

/-- A request of the item's tenant on a pending item. -/
def Wins (requests : ι → Option ResolveRequest) (item : ReviewItemRow) (i : ι)
    (r : ResolveRequest) : Prop :=
  requests i = some r ∧ r.tenantId = item.tenantId ∧ item.status = .pending

/-- The store in a phase: what it was, but for the clock and what the winner wrote. -/
def Written (s : Store) (item : ReviewItemRow) (requests : ι → Option ResolveRequest) (t : Store) :
    Phase ι → Prop
  | .waiting => t = { s with now := t.now }
  | .resolvedBy i => ∃ r time, Wins requests item i r ∧
      t = { s with reviewItems := r.resolve item time s.reviewItems, now := t.now }
  | .recordedBy i => ∃ r time recorded, Wins requests item i r ∧
      t = { s with
        reviewItems := r.resolve item time s.reviewItems
        audit := s.audit ++ [r.auditRow item recorded]
        now := t.now }

/-- What is left to do for a request in a phase. -/
inductive Standing (item : ReviewItemRow) (phase : Phase ι) (i : ι) (r : ResolveRequest) :
    Session → Service Unit → Prop
  | fetch (l : Session) (h : phase.winner ≠ some i) : Standing item phase i r l (r.fetch item.id)
  | update (l : Session) (howner : r.tenantId = item.tenantId) (h : phase.winner ≠ some i) :
      Standing item phase i r l (r.update item.id)
  | audit (l : Session) {resolved : ReviewItemRow} (hsource : resolved.source = item.source)
      (h : phase = .resolvedBy i) : Standing item phase i r l (r.conclude item.id (some resolved))
  | done (l : Session) (h : phase = .recordedBy i) : Standing item phase i r l (.ret ())
  | refused (l : Session) (e : Exn) (hl : l.failed = true) : Standing item phase i r l (.raise e)
  | foreign (l : Session) (htenant : r.tenantId ≠ item.tenantId) :
      Standing item phase i r l (.raise (.reviewItemNotFoundError item.id))
  | late (l : Session) (howner : r.tenantId = item.tenantId)
      (htaken : phase ≠ .waiting ∨ item.status ≠ .pending) (h : phase.winner ≠ some i) :
      Standing item phase i r l (.raise (.reviewItemAlreadyResolvedError item.id))

/-- The state of all requests in a phase. -/
structure Holds (s : Store) (item : ReviewItemRow) (requests : ι → Option ResolveRequest)
    (c : System ι) (phase : Phase ι) : Prop where
  written : Written s item requests c.store phase
  standing : ∀ i l p, c.parties i = some (l, p) →
    ∃ r, requests i = some r ∧ Standing item phase i r l p

/-- The item is in the table once. -/
structure Present (s : Store) (item : ReviewItemRow) : Prop where
  mem : item ∈ s.reviewItems
  unique : ∀ other ∈ s.reviewItems, other.id = item.id → other = item

section Reads

variable {requests : ι → Option ResolveRequest} {phase phase' : Phase ι} {i j : ι}
  {r : ResolveRequest} {l : Session} {p : Service Unit}

/-- In every phase the item's row has its id, its tenant and its source, and is the only one with
its id; it is pending exactly while no request has updated it and it was pending to begin with. -/
theorem Written.row (h : Written s item requests t phase) (hitem : Present s item) :
    ∃ row ∈ t.reviewItems, row.id = item.id ∧ row.tenantId = item.tenantId ∧
      row.source = item.source ∧ (∀ other ∈ t.reviewItems, other.id = item.id → other = row) ∧
      (row.status = .pending ↔ phase = .waiting ∧ item.status = .pending) ∧
      (phase = .waiting → row = item) := by
  have hresolved : ∀ (r : ResolveRequest) time, t.reviewItems = r.resolve item time s.reviewItems →
      phase ≠ .waiting → ∃ row ∈ t.reviewItems, row.id = item.id ∧ row.tenantId = item.tenantId ∧
        row.source = item.source ∧ (∀ other ∈ t.reviewItems, other.id = item.id → other = row) ∧
        (row.status = .pending ↔ phase = .waiting ∧ item.status = .pending) ∧
        (phase = .waiting → row = item) := by
    intro r time hitems hphase
    refine ⟨Store.resolved r.body.disposition.status r.body.correctedValues time item, ?_, rfl, rfl,
      rfl, ?_, ?_, fun hwaiting => absurd hwaiting hphase⟩
    · rw [hitems]
      exact List.mem_map.mpr ⟨item, hitem.mem, if_pos rfl⟩
    · intro other hother hid
      rw [hitems] at hother
      obtain ⟨old, hold, rfl⟩ := List.mem_map.mp hother
      have hsame : old.id = item.id := by
        by_cases h : old.id = item.id
        · exact h
        · rwa [if_neg h] at hid
      rw [if_pos hsame, hitem.unique old hold hsame]
    · refine iff_of_false ?_ fun hwaiting => hphase hwaiting.1
      show r.body.disposition.status ≠ .pending
      cases r.body.disposition <;> exact nofun
  cases phase with
  | waiting =>
    have ht : t = { s with now := t.now } := h
    have hitems : t.reviewItems = s.reviewItems := by rw [ht]
    refine ⟨item, hitems ▸ hitem.mem, rfl, rfl, rfl, ?_, ?_, fun _ => rfl⟩
    · rw [hitems]
      exact hitem.unique
    · exact ⟨fun hpending => ⟨rfl, hpending⟩, fun hboth => hboth.2⟩
  | resolvedBy i =>
    obtain ⟨r, time, -, ht⟩ := h
    exact hresolved r time (congrArg Store.reviewItems ht) nofun
  | recordedBy i =>
    obtain ⟨r, time, recorded, -, ht⟩ := h
    exact hresolved r time (congrArg Store.reviewItems ht) nofun

/-- A turn of a request leaves the phase as it is, or is its update, or its audit row. -/
inductive Phase.Next (i : ι) : Phase ι → Phase ι → Prop
  | same (phase : Phase ι) : Next i phase phase
  | resolve : Next i .waiting (.resolvedBy i)
  | record : Next i (.resolvedBy i) (.recordedBy i)

/-- A turn of one request leaves the others where they stand. -/
theorem Standing.others (h : Standing item phase j r l p) (hnext : phase.Next i phase')
    (hij : j ≠ i) : Standing item phase' j r l p := by
  cases hnext with
  | same => exact h
  | resolve =>
    have hwinner : (Phase.resolvedBy i).winner ≠ some j := fun heq => hij (Option.some.inj heq).symm
    cases h with
    | fetch => exact .fetch l hwinner
    | update howner => exact .update l howner hwinner
    | audit _ hphase => cases hphase
    | done hphase => cases hphase
    | refused e hl => exact .refused l e hl
    | foreign htenant => exact .foreign l htenant
    | late howner => exact .late l howner (.inl nofun) hwinner
  | record =>
    have hwinner : (Phase.recordedBy i).winner ≠ some j := fun heq => hij (Option.some.inj heq).symm
    cases h with
    | fetch => exact .fetch l hwinner
    | update howner => exact .update l howner hwinner
    | audit _ hphase =>
      cases hphase
      exact absurd rfl hij
    | done hphase => cases hphase
    | refused e hl => exact .refused l e hl
    | foreign htenant => exact .foreign l htenant
    | late howner => exact .late l howner (.inl nofun) hwinner

/-- A request that returned has resolved the item and recorded it. -/
theorem Standing.of_ret (h : Standing item phase i r l (.ret ())) : phase = .recordedBy i := by
  generalize hp : (Lib.Prog.ret () : Service Unit) = p at h
  cases h with
  | done hphase => exact hphase
  | audit | fetch | update | refused | foreign | late => cases hp

/-- A request that raised on a live session has lost. -/
theorem Standing.of_raise {e : Exn} (h : Standing item phase i r l (.raise e))
    (hwritten : Written s item requests t phase) (hrequest : requests i = some r)
    (hl : l.failed = false) : phase.winner ≠ some i ∧ e = r.loss item := by
  generalize hp : (Lib.Prog.raise e : Service Unit) = p at h
  cases h with
  | refused e' hfailed => exact absurd hfailed (by simp [hl])
  | foreign htenant =>
    cases hp
    refine ⟨fun hwinner => ?_, (if_neg htenant).symm⟩
    cases phase with
    | waiting => cases hwinner
    | resolvedBy j =>
      cases hwinner
      obtain ⟨r', time, hwins, -⟩ := hwritten
      obtain rfl := Option.some.inj (hwins.1.symm.trans hrequest)
      exact htenant hwins.2.1
    | recordedBy j =>
      cases hwinner
      obtain ⟨r', time, recorded, hwins, -⟩ := hwritten
      obtain rfl := Option.some.inj (hwins.1.symm.trans hrequest)
      exact htenant hwins.2.1
  | late howner htaken hwinner =>
    cases hp
    exact ⟨hwinner, (if_pos howner).symm⟩
  | audit | fetch | update | done => cases hp

/-! ## Steps -/

/-- What a fetch answers. -/
theorem Written.find (h : Written s item requests t phase) (hitem : Present s item)
    (tenantId : Uuid) : (t.findReviewItem tenantId item.id).isSome ↔ tenantId = item.tenantId := by
  obtain ⟨row, hrow, hid, htenant, -, hunique, -, -⟩ := h.row hitem
  constructor
  · intro hfound
    obtain ⟨found, hfound⟩ := Option.isSome_iff_exists.mp hfound
    have hkey := List.find?_some hfound
    simp only [Bool.and_eq_true, decide_eq_true_eq] at hkey
    rw [← hkey.2, hunique found (List.mem_of_find?_eq_some hfound) hkey.1, htenant]
  · rintro rfl
    exact List.find?_isSome.mpr ⟨row, hrow, by simp [hid, htenant]⟩

theorem Standing.act_fetch (hwritten : Written s item requests t phase) (hitem : Present s item)
    (hwinner : phase.winner ≠ some i) (a : Answer) :
    ∀ res l' t', exec (.findReviewItem r.tenantId item.id) a l t = (res, l', t') → t' = t ∧
      Standing item phase i r l' ((Lib.Prog.ofResult res).bind fun found =>
        (require (.reviewItemNotFoundError item.id) found).bind fun _ => r.update item.id) := by
  intro res l' t' hexec
  rcases statement_cases (fun s => .ok (Store.findReviewItem r.tenantId item.id s, s)) a l t with
    ⟨e, heq, -⟩ | ⟨found, u, -, -, hok, heq⟩
  · rw [exec, query, heq] at hexec
    cases hexec
    exact ⟨rfl, .refused _ e rfl⟩
  · rw [exec, query, heq] at hexec
    cases hok
    cases hexec
    refine ⟨rfl, ?_⟩
    have hfind := hwritten.find hitem r.tenantId
    cases hfound : t.findReviewItem r.tenantId item.id with
    | none =>
      refine .foreign l fun htenant => ?_
      rw [hfound] at hfind
      cases hfind.mpr htenant
    | some row =>
      rw [hfound] at hfind
      exact .update l (hfind.mp rfl) hwinner

/-- The guarded update of a request of the owning tenant. -/
theorem Standing.act_update (hwritten : Written s item requests t phase) (hitem : Present s item)
    (hrequest : requests i = some r) (howner : r.tenantId = item.tenantId)
    (hwinner : phase.winner ≠ some i) (a : Answer) :
    ∀ res l' t', exec (.resolveReviewItem r.tenantId item.id r.body.disposition.status
        r.body.correctedValues) a l t = (res, l', t') →
      ∃ phase', phase.Next i phase' ∧ Written s item requests t' phase' ∧
        Standing item phase' i r l' ((Lib.Prog.ofResult res).bind (r.conclude item.id)) := by
  intro res l' t' hexec
  rcases statement_cases (Store.resolveReviewItem r.tenantId item.id r.body.disposition.status
      r.body.correctedValues) a l t with ⟨e, heq, -⟩ | ⟨found, u, -, -, hok, heq⟩
  · rw [exec, heq] at hexec
    cases hexec
    exact ⟨phase, .same _, hwritten, .refused _ e rfl⟩
  · rw [exec, heq] at hexec
    cases hok
    cases hexec
    obtain ⟨row, hrow, hid, htenant, hsource, hunique, hpending, hwaiting⟩ := hwritten.row hitem
    by_cases hopen : phase = .waiting ∧ item.status = .pending
    · obtain ⟨rfl, hstatus⟩ := hopen
      obtain rfl := hwaiting rfl
      have ht : t = { s with now := t.now } := hwritten
      have hitems : t.reviewItems = s.reviewItems := by rw [ht]
      have hguard : ∀ other ∈ t.reviewItems,
          (Store.resolvable r.tenantId row.id other = true ↔ other.id = row.id) := by
        intro other hother
        constructor
        · intro hresolvable
          simp only [Store.resolvable, Bool.and_eq_true, decide_eq_true_eq] at hresolvable
          exact hresolvable.1.1
        · intro hsame
          rw [hunique other hother hsame]
          simp [Store.resolvable, howner, hstatus]
      have hfound : t.reviewItems.find? (Store.resolvable r.tenantId row.id) = some row := by
        have hsome : (t.reviewItems.find? (Store.resolvable r.tenantId row.id)).isSome :=
          List.find?_isSome.mpr ⟨row, hrow, (hguard row hrow).mpr rfl⟩
        obtain ⟨other, hother⟩ := Option.isSome_iff_exists.mp hsome
        have hmem := List.mem_of_find?_eq_some hother
        rw [hother, hunique other hmem ((hguard other hmem).mp (List.find?_some hother))]
      refine ⟨.resolvedBy i, .resolve, ⟨r, t.now, ⟨hrequest, howner, hstatus⟩, ?_⟩, ?_⟩
      · have hmap : (t.reviewItems.map fun other => if Store.resolvable r.tenantId row.id other then
            Store.resolved r.body.disposition.status r.body.correctedValues t.now other
            else other) = r.resolve row t.now s.reviewItems := by
          rw [ResolveRequest.resolve, ← hitems]
          exact List.map_congr_left fun other hother => if_congr (hguard other hother) rfl rfl
        rw [hmap, ht]
      · rw [hfound]
        exact .audit l rfl rfl
    · have hclosed : ∀ other ∈ t.reviewItems,
          ¬ Store.resolvable r.tenantId item.id other = true := by
        intro other hother hresolvable
        simp only [Store.resolvable, Bool.and_eq_true, decide_eq_true_eq] at hresolvable
        obtain ⟨⟨hsame, -⟩, hstatus⟩ := hresolvable
        rw [hunique other hother hsame] at hstatus
        exact hopen (hpending.mp hstatus)
      have hfound : t.reviewItems.find? (Store.resolvable r.tenantId item.id) = none :=
        List.find?_eq_none.mpr hclosed
      have hmap : (t.reviewItems.map fun other => if Store.resolvable r.tenantId item.id other then
          Store.resolved r.body.disposition.status r.body.correctedValues t.now other
          else other) = t.reviewItems :=
        (List.map_congr_left fun other hother => if_neg (hclosed other hother)).trans
          (List.map_id _)
      refine ⟨phase, .same _, ?_, ?_⟩
      · rw [hmap]
        exact hwritten
      · rw [hfound]
        exact .late l howner (not_and_or.mp hopen) hwinner

/-- The audit row of the winner. -/
theorem Standing.act_audit (hwritten : Written s item requests t (.resolvedBy i))
    (hrequest : requests i = some r) {resolved : ReviewItemRow}
    (hsource : resolved.source = item.source) (a : Answer) :
    ∀ res l' t', exec (.insertAudit r.tenantId r.context.actor r.context.requestId
        "review_item.resolve".toList "review_item".toList (some item.id)
        (some (.obj [("disposition".toList, .str r.body.disposition.value),
          ("source".toList, .str (ReviewItemSource.value resolved.source))]))) a l t =
        (res, l', t') →
      ∃ phase', (Phase.resolvedBy i).Next i phase' ∧ Written s item requests t' phase' ∧
        Standing item phase' i r l' ((Lib.Prog.ofResult res).bind fun _ => .ret ()) := by
  intro res l' t' hexec
  rcases statement_cases (fun t => .ok ((), Store.insertAudit r.tenantId r.context.actor
      r.context.requestId "review_item.resolve".toList "review_item".toList (some item.id)
      (some (.obj [("disposition".toList, .str r.body.disposition.value),
        ("source".toList, .str (ReviewItemSource.value resolved.source))])) a.began t)) a l t with
    ⟨e, heq, -⟩ | ⟨r', u, -, -, hok, heq⟩
  · rw [exec, insert, heq] at hexec
    cases hexec
    exact ⟨_, .same _, hwritten, .refused _ e rfl⟩
  · rw [exec, insert, heq] at hexec
    cases hok
    cases hexec
    obtain ⟨winner, time, hwins, ht⟩ := hwritten
    obtain rfl := Option.some.inj (hwins.1.symm.trans hrequest)
    refine ⟨.recordedBy i, .record, ⟨winner, time, t.now - a.began, hwins, ?_⟩,
      .done l rfl⟩
    rw [hsource, ht]
    rfl

/-- One turn of a request takes the phase on, and the request with it. -/
theorem Standing.act (hwritten : Written s item requests t phase) (hitem : Present s item)
    (hrequest : requests i = some r) {o : Op} {next : Except Exn o.Res → Service Unit}
    (h : Standing item phase i r l (.op o next)) (a : Answer) :
    ∃ phase', phase.Next i phase' ∧ Written s item requests (exec o a l t).2.2 phase' ∧
      Standing item phase' i r (exec o a l t).2.1 (next (exec o a l t).1) := by
  generalize hp : (Lib.Prog.op o next : Service Unit) = p at h
  cases h with
  | fetch hwinner =>
    cases hp
    obtain ⟨hstore, hstanding⟩ := act_fetch hwritten hitem hwinner a _ _ _ rfl
    exact ⟨phase, .same _, hstore.symm ▸ hwritten, hstanding⟩
  | update howner hwinner =>
    cases hp
    exact act_update hwritten hitem hrequest howner hwinner a _ _ _ rfl
  | audit hsource hphase =>
    cases hp
    subst hphase
    exact act_audit hwritten hrequest hsource a _ _ _ rfl
  | done | refused | foreign | late => cases hp

end Reads

/-! ## Runs -/

section Runs

variable [DecidableEq ι] {requests : ι → Option ResolveRequest} {turns : List (Turn ι)}
  {c c' : System ι} {phase : Phase ι}

omit [DecidableEq ι] in
theorem Written.tick (h : Written s item requests t phase) (elapsed : Time) :
    Written s item requests (t.tick elapsed) phase := by
  cases phase with
  | waiting =>
    have ht : t = { s with now := t.now } := h
    show t.tick elapsed = { s with now := (t.tick elapsed).now }
    rw [ht]
    rfl
  | resolvedBy i =>
    obtain ⟨r, time, hwins, ht⟩ := h
    refine ⟨r, time, hwins, ?_⟩
    rw [ht]
    rfl
  | recordedBy i =>
    obtain ⟨r, time, recorded, hwins, ht⟩ := h
    refine ⟨r, time, recorded, hwins, ?_⟩
    rw [ht]
    rfl

theorem Holds.step {turn : Turn ι} (h : Holds s item requests c phase) (hitem : Present s item)
    (hstep : System.step c turn = some c') : ∃ phase', Holds s item requests c' phase' := by
  obtain ⟨hwritten, hstanding⟩ := h
  cases turn with
  | act i a =>
    obtain ⟨l, o, next, hi, rfl⟩ := Lib.Pool.step_act_eq_some_iff.mp hstep
    obtain ⟨r, hrequest, hmine⟩ := hstanding i l _ hi
    obtain ⟨phase', hnext, hwritten', hmine'⟩ := hmine.act hwritten hitem hrequest a
    refine ⟨phase', hwritten', fun j l' p hj => ?_⟩
    dsimp only at hj
    by_cases hji : j = i
    · subst hji
      rw [Function.update_self] at hj
      cases hj
      exact ⟨r, hrequest, hmine'⟩
    · rw [Function.update_of_ne hji] at hj
      obtain ⟨r', hrequest', htheirs⟩ := hstanding j l' p hj
      exact ⟨r', hrequest', htheirs.others hnext hji⟩
  | drift elapsed =>
    cases hstep
    exact ⟨phase, hwritten.tick elapsed, hstanding⟩
  | crash i =>
    cases hstep
    refine ⟨phase, hwritten, fun j l' p hj => ?_⟩
    dsimp only at hj
    by_cases hji : j = i
    · subst hji
      rw [Function.update_self] at hj
      cases hj
    · rw [Function.update_of_ne hji] at hj
      exact hstanding j l' p hj

variable [Ucd] [Platform]

/-- The requests on an item, each about to send its first statement. -/
def contest (s : Store) (item : ReviewItemRow) (requests : ι → Option ResolveRequest) : System ι :=
  everyone s fun i => (requests i).map (·.party item.id)

theorem holds_contest (hitem : Present s item)
    (hrun : run System.step (contest s item requests) turns = some c) :
    ∃ phase, Holds s item requests c phase := by
  have hwaiting : Written s item requests s .waiting := (rfl : s = { s with now := s.now })
  refine Lib.run_invariant (I := fun c => ∃ phase, Holds s item requests c phase) ?_
    ⟨.waiting, hwaiting, ?_⟩ hrun
  · rintro c turn c' ⟨phase, hholds⟩ hstep
    exact hholds.step hitem hstep
  · intro i l p hi
    obtain ⟨program, hprogram, heq⟩ := Option.map_eq_some_iff.mp hi
    obtain ⟨party, hparty, rfl⟩ := Option.map_eq_some_iff.mp hprogram
    obtain ⟨r, hrequest, rfl⟩ := Option.map_eq_some_iff.mp hparty
    cases heq
    refine ⟨r, hrequest, ?_⟩
    rw [r.program_eq]
    exact .fetch _ nofun

omit [Ucd] [Platform] in
theorem itemsSound_empty (now : Time) : ItemsSound (.empty now) :=
  ⟨.nil, nofun, nofun⟩

/-- Any requests on an item in any order: the store is what it was but for what one winner wrote, a
request that returns is that winner, and every other one that no statement failed under raises the
error of its tenant's side. In every run of any parties the columns of every item agree, and a
resolved item never changes again. -/
theorem resolved_once (hsound : ItemsSound s) (hitem : item ∈ s.reviewItems)
    (hrun : run System.step (contest s item requests) turns = some c) :
    (∃ phase, Written s item requests c.store phase ∧
      (∀ i l, c.parties i = some (l, .ret ()) → phase = .recordedBy i) ∧
      ∀ i r l e, requests i = some r → c.parties i = some (l, .raise e) → l.failed = false →
        phase.winner ≠ some i ∧ e = r.loss item) ∧
    (∀ now, ItemsSound (.empty now)) ∧
    ∀ (κ : Type) [DecidableEq κ] (members : κ → Option Party) (past more : List (Turn κ))
      (d d' : System κ), run System.step (everyone s members) past = some d →
        run System.step d more = some d' →
        ItemsSound d.store ∧ ItemsSound d'.store ∧ Persists d.store d'.store := by
  have hpresent : Present s item :=
    ⟨hitem, fun other hother hid => hsound.eq_of_id_eq hother hitem hid⟩
  obtain ⟨phase, hwritten, hstanding⟩ := holds_contest hpresent hrun
  refine ⟨⟨phase, hwritten, fun i l hi => ?_, fun i r l e hr hi hl => ?_⟩, itemsSound_empty, ?_⟩
  · obtain ⟨r, -, hmine⟩ := hstanding i l _ hi
    exact hmine.of_ret
  · obtain ⟨r', hr', hmine⟩ := hstanding i l _ hi
    obtain rfl := Option.some.inj (hr.symm.trans hr')
    exact hmine.of_raise hwritten hr hl
  · intro κ _ members past more d d' hpast hmore
    exact itemsSound_of_run hsound hpast hmore

end Runs

/-- A pending obligation of tenant 1. -/
def pendingItem : ReviewItemRow :=
  ⟨30, 1, .extraction, "obligation".toList, 10, 20, .null, 1 / 2, .pending, none, none, 0⟩

def onePending : Store := { Store.empty 0 with reviewItems := [pendingItem], issued := [30] }

/-- Two requests of the item's tenant and one of another. -/
def threeRequests : Fin 3 → Option ResolveRequest
  | 0 => some ⟨⟨[], none⟩, 1, ⟨.approved, none, by decide⟩⟩
  | 1 => some ⟨⟨[], none⟩, 1, ⟨.edited, some (.obj [("owner".toList, .str "buyer".toList)]), by decide⟩⟩
  | 2 => some ⟨⟨[], none⟩, 2, ⟨.rejected, none, by decide⟩⟩

/-- Both of the item's tenant fetch it before either updates it. -/
def threeTurns : List (Turn (Fin 3)) :=
  [.act 0 {}, .act 1 {}, .act 2 {}, .act 1 {}, .act 0 {}, .act 1 {}]

theorem resolved_once_three_requests :
    ∃ c, run System.step (@contest (Fin 3) Ucd.ascii Documents.onePdf onePending pendingItem
        threeRequests) threeTurns = some c ∧
      ∃ phase, Written onePending pendingItem threeRequests c.store phase ∧
        ∀ i l, c.parties i = some (l, .ret ()) → phase = .recordedBy i := by
  have hruns : (run System.step (@contest (Fin 3) Ucd.ascii Documents.onePdf onePending pendingItem
      threeRequests) threeTurns).isSome := by decide +kernel
  obtain ⟨c, hc⟩ := Option.isSome_iff_exists.mp hruns
  have hsound : ItemsSound onePending := by
    refine ⟨List.nodup_singleton _, fun item hitem => ?_, fun item hitem => ?_⟩
    · obtain rfl := List.mem_singleton.mp hitem
      exact List.mem_singleton_self _
    · obtain rfl := List.mem_singleton.mp hitem
      exact ⟨iff_of_true rfl rfl, iff_of_false nofun nofun⟩
  obtain ⟨⟨phase, hwritten, hreturned, -⟩, -⟩ := @resolved_once (Fin 3) pendingItem onePending _
    threeRequests threeTurns c Ucd.ascii Documents.onePdf hsound (List.mem_singleton_self _) hc
  exact ⟨c, hc, phase, hwritten, hreturned⟩

end ContractIntel.ReviewQueue
