import ContractIntel.Laws.Auth.Jwks

/-!
# The limit on requests for unknown kids

What limits these requests is the time of the fetch that succeeded last. A request that has succeeded
keeps the next one for an unknown kid away for its time; one that is in flight, or failed, does not. So
the requests are spaced exactly if no call asks again for an unknown kid while an earlier such request
of the last thirty seconds has not succeeded (`unknown_kid_requests_spaced_iff`).
-/

namespace ContractIntel.Auth

open Lib (Along run)

variable {Key ι : Type}

/-- Within a period in which the cache is not seen expired, requests for unknown kids start more than
the refresh time apart. -/
def Spaced (c : Chronicle ι Key) : Prop :=
  c.requests.Pairwise fun later earlier => later.unknownKid → earlier.unknownKid →
    later.period = earlier.period → UNKNOWN_KID_REFRESH_SECONDS < later.start - earlier.start

/-- The event is a call that finds its kid unknown and refreshes, while a request for an unknown kid that
started in the refresh time before, in the same period, is in flight or has failed. -/
def Hammers (c : Chronicle ι Key) : Event ι → Prop
  | .call _ kid now later => c.calls.client.expired now = false ∧
      c.calls.client.unknownKidRefresh kid later ∧
        ∃ request ∈ c.requests, request.unknownKid ∧ request.period = c.periodAt later ∧
          later - request.start ≤ UNKNOWN_KID_REFRESH_SECONDS ∧ request.outcome ≠ some true
  | .reply .. => False

/-- Requests have started, and one that succeeded did so before the cache was last filled. -/
structure Limited (c : Chronicle ι Key) : Prop where
  started : ∀ request ∈ c.requests, request.start ≤ c.calls.clock
  succeeded : ∀ request ∈ c.requests, request.outcome = some true →
    ∃ completed, c.calls.client.fetchedAt = some completed ∧ request.start ≤ completed

theorem limited_start (cacheSeconds now : Rat) :
    Limited (.start cacheSeconds now : Chronicle ι Key) where
  started _ h := absurd h List.not_mem_nil
  succeeded _ h := absurd h List.not_mem_nil

section Steps

variable [DecidableEq ι] {pyJwk : List (Str × Json) → Except FetchError Key}
  {c c' : Chronicle ι Key} {e : Event ι}

theorem settle_start (i : ι) (success : Bool) (request : Request ι) :
    (Chronicle.settle i success request).start = request.start := by
  unfold Chronicle.settle
  split <;> rfl

theorem settle_unknownKid (i : ι) (success : Bool) (request : Request ι) :
    (Chronicle.settle i success request).unknownKid = request.unknownKid := by
  unfold Chronicle.settle
  split <;> rfl

theorem settle_period (i : ι) (success : Bool) (request : Request ι) :
    (Chronicle.settle i success request).period = request.period := by
  unfold Chronicle.settle
  split <;> rfl

/-- A reply that is an error makes no success. -/
theorem settle_failed {i : ι} {request : Request ι}
    (h : (Chronicle.settle i false request).outcome = some true) : request.outcome = some true := by
  unfold Chronicle.settle at h
  split at h
  · cases h
  · exact h

theorem Limited.step (h : Limited c) (hstep : c.step pyJwk e = some c') : Limited c' := by
  obtain ⟨calls, answered, hstepped, rfl, -⟩ := Chronicle.stepped hstep
  cases hstepped with
  | @fetch i kid now later hclock hlater hidle hneeded =>
    constructor
    · intro request hmem
      rcases List.mem_cons.mp hmem with rfl | hmem
      · exact le_refl _
      · exact (h.started request hmem).trans (hclock.trans hlater)
    · intro request hmem houtcome
      rcases List.mem_cons.mp hmem with rfl | hmem
      · cases houtcome
      · exact h.succeeded request hmem houtcome
  | @hit i kid now later hclock hlater hidle hneeded =>
    exact ⟨fun request hmem => (h.started request hmem).trans (hclock.trans hlater), h.succeeded⟩
  | @fetched i kid reply now keys hclock hwaiting hread =>
    -- whatever has started, this fetch completed later
    have hstarted : ∀ request ∈ c.requests.map (Chronicle.settle i (readReply pyJwk reply).isOk),
        request.start ≤ now := by
      intro request hmem
      obtain ⟨before, hbefore, rfl⟩ := List.mem_map.mp hmem
      rw [settle_start]
      exact (h.started before hbefore).trans hclock
    exact ⟨hstarted, fun request hmem _ => ⟨now, rfl, hstarted request hmem⟩⟩
  | @failed i kid reply now err hclock hwaiting hread =>
    have hfailed : (readReply pyJwk reply).isOk = false := by rw [hread]; rfl
    constructor
    · intro request hmem
      obtain ⟨before, hbefore, rfl⟩ := List.mem_map.mp hmem
      rw [settle_start]
      exact (h.started before hbefore).trans hclock
    · intro request hmem houtcome
      obtain ⟨before, hbefore, rfl⟩ := List.mem_map.mp hmem
      rw [hfailed] at houtcome ⊢
      rw [settle_start]
      exact h.succeeded before hbefore (settle_failed houtcome)

omit [DecidableEq ι] in
/-- A request that succeeded is more than the refresh time old when the next one is made. -/
theorem Limited.spaced_of_succeeded (h : Limited c) {request : Request ι}
    (hmem : request ∈ c.requests) (houtcome : request.outcome = some true) {kid : Str} {later : Rat}
    (hrefresh : c.calls.client.unknownKidRefresh kid later) :
    UNKNOWN_KID_REFRESH_SECONDS < later - request.start := by
  obtain ⟨completed, hfetched, hstart⟩ := h.succeeded request hmem houtcome
  have holder := (Bool.and_eq_true_iff.mp hrefresh).2
  rw [JwksClient.olderThan, hfetched] at holder
  have := of_decide_eq_true holder
  linarith

/-- One step: the requests stay spaced exactly if it does not hammer. -/
theorem Limited.spaced_step_iff (h : Limited c) (hstep : c.step pyJwk e = some c') :
    Spaced c' ↔ Spaced c ∧ ¬ Hammers c e := by
  obtain ⟨calls, answered, hstepped, rfl, -⟩ := Chronicle.stepped hstep
  cases hstepped with
  | @fetch i kid now later hclock hlater hidle hneeded =>
    have hcons : Spaced (c.record pyJwk ⟨c.calls.client, later,
        Function.update c.calls.waiting i (some kid)⟩ none (.call i kid now later)) ↔
          (∀ request ∈ c.requests, (! c.calls.client.expired now) → request.unknownKid →
            c.periodAt later = request.period →
              UNKNOWN_KID_REFRESH_SECONDS < later - request.start) ∧ Spaced c :=
      List.pairwise_cons
    rw [hcons, and_comm]
    refine and_congr_right fun _ => ?_
    cases hexpired : c.calls.client.expired now with
    | true =>
      exact iff_of_true (fun _ _ h => by cases h) fun hammers => by cases hexpired.symm.trans hammers.1
    | false =>
      rw [hexpired, Bool.false_or] at hneeded
      constructor
      · rintro hspaced ⟨-, -, request, hmem, hunknown, hperiod, hrecent, -⟩
        exact absurd (hspaced request hmem rfl hunknown hperiod.symm) (not_lt.mpr hrecent)
      · intro hnot request hmem _ hunknown hperiod
        by_cases houtcome : request.outcome = some true
        · exact h.spaced_of_succeeded hmem houtcome hneeded
        · by_contra hclose
          exact hnot ⟨hexpired, hneeded, request, hmem, hunknown, hperiod.symm, not_lt.mp hclose,
            houtcome⟩
  | @hit i kid now later hclock hlater hidle hneeded =>
    refine (and_iff_left ?_).symm
    rintro ⟨-, hrefresh, -⟩
    cases (Bool.or_eq_false_iff.mp hneeded).2.symm.trans hrefresh
  | fetched | failed =>
    refine Iff.trans ?_ (and_iff_left id).symm
    refine List.pairwise_map.trans (Iff.of_eq ?_)
    simp only [settle_start, settle_unknownKid, settle_period]
    rfl

theorem Limited.spaced_run_iff (h : Limited c) {events : List (Event ι)}
    (hrun : run (Chronicle.step pyJwk) c events = some c') :
    Spaced c' ↔ Spaced c ∧ Along (Chronicle.step pyJwk) (fun c e => ¬ Hammers c e) c events := by
  induction events generalizing c with
  | nil =>
    cases hrun
    exact (and_iff_left trivial).symm
  | cons e events ih =>
    obtain ⟨next, hstep, hrest⟩ := Lib.run_cons_eq_some_iff.mp hrun
    rw [ih (h.step hstep) hrest, h.spaced_step_iff hstep, and_assoc]
    refine and_congr_right fun _ => and_congr_right fun _ => ?_
    constructor
    · intro halong t ht
      cases hstep.symm.trans ht
      exact halong
    · exact fun halong => halong next hstep

/-- In every run of any calls: requests for unknown kids are spaced exactly if no call makes one while
another of the refresh time before is in flight or has failed. -/
theorem unknown_kid_requests_spaced_iff (pyJwk : List (Str × Json) → Except FetchError Key)
    (cacheSeconds now : Rat) (events : List (Event ι)) (c : Chronicle ι Key)
    (hrun : run (Chronicle.step pyJwk) (.start cacheSeconds now) events = some c) :
    Spaced c ↔
      Along (Chronicle.step pyJwk) (fun c e => ¬ Hammers c e) (.start cacheSeconds now) events :=
  ((limited_start cacheSeconds now).spaced_run_iff hrun).trans (and_iff_right .nil)

end Steps

/-- After a fetch, a call with a bogus kid whose request succeeds, and another bogus kid. -/
def spacedCalls : List (Event Nat) :=
  [.call 0 "a".toList 0 0, .reply 0 (.ok ⟨200, .ok oneKey⟩) 1, .call 1 "b".toList 32 32,
    .reply 1 (.ok ⟨200, .ok oneKey⟩) 33, .call 2 "c".toList 34 34]

theorem unknown_kid_requests_spaced_iff_spaced :
    ∃ c : Chronicle Nat Unit, run (Chronicle.step fun _ => .ok ()) (.start 600 0) spacedCalls = some c ∧
      c.requests.length = 2 ∧ (Spaced c ↔ Along (Chronicle.step fun _ => .ok ())
        (fun c e => ¬ Hammers c e) (.start 600 0) spacedCalls) := by
  have hend : (run (Chronicle.step fun _ => .ok ()) (.start 600 0 : Chronicle Nat Unit)
      spacedCalls).map (fun c => c.requests.length) = some 2 := by
    decide +kernel
  obtain ⟨c, hrun, hlength⟩ := Option.map_eq_some_iff.mp hend
  exact ⟨c, hrun, hlength, unknown_kid_requests_spaced_iff _ 600 0 spacedCalls c hrun⟩

/-- After a fetch, two calls with bogus kids, a second apart; neither is answered. -/
def bogusCalls : List (Event Nat) :=
  [.call 0 "a".toList 0 0, .reply 0 (.ok ⟨200, .ok oneKey⟩) 1, .call 1 "b".toList 32 32,
    .call 2 "c".toList 33 33]

/-- Each of them makes a request of its own. -/
theorem slow_issuer_is_hammered :
    ¬ ∀ (events : List (Event Nat)) (c : Chronicle Nat Unit),
      run (Chronicle.step fun _ => .ok ()) (.start 600 0) events = some c → Spaced c := by
  intro hall
  have hend : (run (Chronicle.step fun _ => .ok ()) (.start 600 0 : Chronicle Nat Unit)
      bogusCalls).map (fun c => c.requests.map fun r => (r.start, r.unknownKid, r.period)) =
        some [(33, true, 2), (32, true, 2), (0, false, 1)] := by
    decide +kernel
  obtain ⟨c, hrun, hrequests⟩ := Option.map_eq_some_iff.mp hend
  have hspaced : (c.requests.map fun r => (r.start, r.unknownKid, r.period)).Pairwise
      fun later earlier => later.2.1 → earlier.2.1 → later.2.2 = earlier.2.2 →
        UNKNOWN_KID_REFRESH_SECONDS < later.1 - earlier.1 :=
    List.pairwise_map.mpr (hall bogusCalls c hrun)
  rw [hrequests] at hspaced
  have hapart : UNKNOWN_KID_REFRESH_SECONDS < 33 - 32 :=
    List.rel_of_pairwise_cons hspaced List.mem_cons_self rfl rfl rfl
  norm_num [UNKNOWN_KID_REFRESH_SECONDS] at hapart

end ContractIntel.Auth
