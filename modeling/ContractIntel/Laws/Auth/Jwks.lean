import ContractIntel.Auth.Jwks
import Mathlib.Tactic.Linarith

/-!
# Signing keys stay fresh

A chronicle is the calls with what has happened to them: since when each one runs, which fetches have
succeeded, and which requests were made, for what reason and with what outcome. No step reads it.

Whatever the calls ask for and however they interleave, the cached keys and their timestamp are those of
the fetch that succeeded last, so a key that is returned is of that fetch, and the fetch is recent. A
fetch that fails changes nothing; that it raises `JwksUnavailableError` is true of the exceptions its
`except` clause names (`signing_keys_fresh_iff`).
-/

namespace ContractIntel.Auth

open Lib (Along run run_invariant)

variable {Key ι : Type}

/-! ## Chronicles -/

/-- A request to the issuer. -/
structure Request (ι : Type) where
  caller : ι
  start : Rat
  /-- The cache has not expired: the request is made for an unknown kid. -/
  unknownKid : Bool
  /-- The number of the period, periods being counted at the moments the cache is seen expired. -/
  period : Nat
  /-- Whether it succeeded, once it is over. -/
  outcome : Option Bool

structure Chronicle (ι Key : Type) where
  calls : Calls ι Key
  /-- When the call that runs, or ran last, started. -/
  since : ι → Rat
  /-- The fetches that succeeded, with the times they completed at, the latest first. -/
  fetched : List (Rat × KeySet Key)
  period : Nat
  /-- The requests, the latest first. -/
  requests : List (Request ι)

namespace Chronicle

variable [DecidableEq ι] (pyJwk : List (Str × Json) → Except FetchError Key)

/-- The outcome of the request that a caller awaits. -/
def settle (i : ι) (success : Bool) (request : Request ι) : Request ι :=
  if request.caller = i ∧ request.outcome = none then { request with outcome := some success }
  else request

def periodAt (c : Chronicle ι Key) (now : Rat) : Nat :=
  if c.calls.client.expired now then c.period + 1 else c.period

/-- What an event adds. -/
def record (c : Chronicle ι Key) (calls : Calls ι Key) (answered : Option (Answered Key)) :
    Event ι → Chronicle ι Key
  | .call i _ now later =>
    { c with
      calls
      since := Function.update c.since i now
      period := c.periodAt later
      requests :=
        if answered.isNone then
          ⟨i, later, ! c.calls.client.expired now, c.periodAt later, none⟩ :: c.requests
        else c.requests }
  | .reply i reply now =>
    { c with
      calls
      period := c.periodAt now
      fetched :=
        match readReply pyJwk reply with
        | .ok keys => (now, keys) :: c.fetched
        | .error _ => c.fetched
      requests := c.requests.map (settle i (readReply pyJwk reply).isOk) }

def step (c : Chronicle ι Key) (e : Event ι) : Option (Chronicle ι Key) :=
  (c.calls.step pyJwk e).map fun r => c.record pyJwk r.1 r.2 e

/-- What a call is answered at an event. -/
def answer (c : Chronicle ι Key) (e : Event ι) : Option (Answered Key) :=
  (c.calls.step pyJwk e).bind (·.2)

omit [DecidableEq ι] in
/-- A client that has never fetched. -/
def start (cacheSeconds now : Rat) : Chronicle ι Key :=
  ⟨.start cacheSeconds now, fun _ => now, [], 0, []⟩

end Chronicle

/-! ## Replies -/

section Replies

variable (pyJwk : List (Str × Json) → Except FetchError Key)

/-- The entries up to the first that is refused are dictionaries, and what the key parser raises is
caught. -/
def HandledEntries : List Json → Prop
  | [] => True
  | .obj fields :: rest =>
    (∀ e, selected fields → pyJwk fields = .error e → e.caught) ∧
      ((readEntry pyJwk (.obj fields)).isOk → HandledEntries rest)
  | _ :: _ => False

/-- What a reply may raise is caught: the transport, the body and the key parser raise only what the
`except` clause names, and what is listed under `keys` are dictionaries. -/
def Handled : Reply → Prop
  | .error e => e.caught
  | .ok response => 200 ≤ response.status ∧ response.status < 300 →
    match response.json with
    | .error e => e.caught
    | .ok (.obj fields) => ∀ value entries, field "keys" fields = some value →
        iterate value = .ok entries → HandledEntries pyJwk entries
    | .ok _ => True

theorem readEntry_caught_iff {fields : List (Str × Json)} :
    (∀ e, readEntry pyJwk (.obj fields) = .error e → e.caught) ↔
      ∀ e, selected fields → pyJwk fields = .error e → e.caught := by
  simp only [readEntry]
  by_cases hselected : selected fields
  · rw [if_pos hselected]
    cases hkey : pyJwk fields with
    | error e =>
      constructor
      · rintro h _ _ ⟨rfl⟩
        exact h e rfl
      · rintro h _ ⟨rfl⟩
        exact h e hselected rfl
    | ok key =>
      refine iff_of_true (fun e h => ?_) fun e _ h => by cases h
      simp only [bind, Except.bind] at h
      split at h <;> cases h <;> rfl
  · rw [if_neg hselected]
    exact iff_of_true (fun e h => by cases h) fun e h => absurd h hselected

theorem readEntries_caught_iff (entries : List Json) :
    (∀ e, readEntries pyJwk entries = .error e → e.caught) ↔ HandledEntries pyJwk entries := by
  induction entries with
  | nil => exact iff_of_true (fun e h => by cases h) trivial
  | cons entry rest ih =>
    have hcons : readEntries pyJwk (entry :: rest) = (readEntry pyJwk entry).bind fun keys =>
        (readEntries pyJwk rest).bind fun more => .ok (more ++ keys) := rfl
    rw [hcons]
    cases entry with
    | obj fields =>
      rw [HandledEntries, ← readEntry_caught_iff, ← ih]
      cases hfirst : readEntry pyJwk (.obj fields) with
      | error e =>
        refine ⟨fun h => ⟨h, fun hok => by cases hok⟩, fun h => h.1⟩
      | ok keys =>
        rw [and_iff_right (fun e h => by cases h)]
        cases readEntries pyJwk rest with
        | error e => exact ⟨fun h _ => h, fun h => h rfl⟩
        | ok more => exact iff_of_true (fun e h => by cases h) fun _ e h => by cases h
    | null | bool | num | str | arr =>
      refine iff_of_false (fun h => ?_) id
      cases h _ rfl

theorem iterate_error {value : Json} {e : FetchError} (h : iterate value = .error e) :
    e = .typeError := by
  cases value <;> cases h <;> rfl

theorem readReply_caught_iff (reply : Reply) :
    (∀ e, readReply pyJwk reply = .error e → e.caught) ↔ Handled pyJwk reply := by
  cases reply with
  | error e =>
    constructor
    · exact fun h => h e rfl
    · rintro h _ ⟨rfl⟩
      exact h
  | ok response =>
    obtain ⟨status, json⟩ := response
    by_cases hstatus : 200 ≤ status ∧ status < 300
    · rw [Handled, imp_iff_right hstatus]
      cases json with
      | error e =>
        have hread : readReply pyJwk (.ok ⟨status, .error e⟩) = .error e := by
          simp [readReply, bind, Except.bind, hstatus]
        rw [hread]
        constructor
        · exact fun h => h e rfl
        · rintro h _ ⟨rfl⟩
          exact h
      | ok value =>
        cases value with
        | obj fields =>
          cases hkeys : field "keys" fields with
          | none =>
            have hread : readReply pyJwk (.ok ⟨status, .ok (.obj fields)⟩) = .error .keyError := by
              simp [readReply, bind, Except.bind, hstatus, hkeys, throw, throwThe,
                MonadExceptOf.throw]
            rw [hread]
            refine iff_of_true ?_ fun _ _ h => by cases hkeys.symm.trans h
            rintro _ ⟨rfl⟩
            rfl
          | some entries =>
            have hread : readReply pyJwk (.ok ⟨status, .ok (.obj fields)⟩) =
                (iterate entries).bind (readEntries pyJwk) := by
              simp [readReply, bind, Except.bind, hstatus, hkeys]
            rw [hread]
            cases hiterate : iterate entries with
            | error e =>
              refine iff_of_true ?_ fun value others hvalue hothers => ?_
              · rintro _ ⟨rfl⟩
                rw [iterate_error hiterate]
                rfl
              · cases hkeys.symm.trans hvalue
                cases hiterate.symm.trans hothers
            | ok items =>
              refine (readEntries_caught_iff pyJwk items).trans ⟨fun h value others hvalue hothers => ?_,
                fun h => h entries items hkeys hiterate⟩
              cases hkeys.symm.trans hvalue
              cases hiterate.symm.trans hothers
              exact h
        | null | bool | num | str | arr =>
          refine iff_of_true (fun e h => ?_) trivial
          simp [readReply, bind, Except.bind, hstatus, throw, throwThe, MonadExceptOf.throw] at h
          rw [← h]
          rfl
    · have hread : readReply pyJwk (.ok ⟨status, json⟩) = .error .httpError := by
        simp [readReply, bind, Except.bind, hstatus, throw, throwThe, MonadExceptOf.throw]
      rw [hread]
      refine iff_of_true ?_ fun h => absurd h hstatus
      rintro _ ⟨rfl⟩
      rfl

end Replies

/-! ## Steps -/

section Steps

variable [DecidableEq ι] {pyJwk : List (Str × Json) → Except FetchError Key}

/-- What a step of the calls can be. -/
inductive Calls.Stepped (pyJwk : List (Str × Json) → Except FetchError Key) (w : Calls ι Key) :
    Event ι → Calls ι Key → Option (Answered Key) → Prop
  | fetch {i : ι} {kid : Str} {now later : Rat} (hclock : w.clock ≤ now) (hlater : now ≤ later)
      (hidle : w.waiting i = none)
      (hneeded : (w.client.expired now || w.client.unknownKidRefresh kid later) = true) :
      Stepped pyJwk w (.call i kid now later)
        ⟨w.client, later, Function.update w.waiting i (some kid)⟩ none
  | hit {i : ι} {kid : Str} {now later : Rat} (hclock : w.clock ≤ now) (hlater : now ≤ later)
      (hidle : w.waiting i = none)
      (hneeded : (w.client.expired now || w.client.unknownKidRefresh kid later) = false) :
      Stepped pyJwk w (.call i kid now later) ⟨w.client, later, w.waiting⟩
        (some (.ok (w.client.keys.get kid)))
  | fetched {i : ι} {kid : Str} {reply : Reply} {now : Rat} {keys : KeySet Key}
      (hclock : w.clock ≤ now) (hwaiting : w.waiting i = some kid)
      (hread : readReply pyJwk reply = .ok keys) :
      Stepped pyJwk w (.reply i reply now)
        ⟨{ w.client with keys, fetchedAt := some now }, now, Function.update w.waiting i none⟩
        (some (.ok (keys.get kid)))
  | failed {i : ι} {kid : Str} {reply : Reply} {now : Rat} {e : FetchError}
      (hclock : w.clock ≤ now) (hwaiting : w.waiting i = some kid)
      (hread : readReply pyJwk reply = .error e) :
      Stepped pyJwk w (.reply i reply now) ⟨w.client, now, Function.update w.waiting i none⟩
        (some (.error (if e.caught then .jwksUnavailableError else .raised e)))

theorem Calls.stepped {w w' : Calls ι Key} {e : Event ι} {answered : Option (Answered Key)}
    (h : w.step pyJwk e = some (w', answered)) : w.Stepped pyJwk e w' answered := by
  cases e with
  | call i kid now later =>
    simp only [Calls.step] at h
    split at h
    next henabled =>
      obtain ⟨hclock, hlater, hidle⟩ := henabled
      split at h
      next hneeded =>
        cases h
        exact .fetch hclock hlater hidle hneeded
      next hneeded =>
        cases h
        exact .hit hclock hlater hidle (Bool.eq_false_iff.mpr hneeded)
    next => cases h
  | reply i reply now =>
    simp only [Calls.step] at h
    split at h
    next => cases h
    next kid hwaiting =>
      split at h
      next hclock =>
        simp only [JwksClient.fetch] at h
        cases hread : readReply pyJwk reply with
        | ok keys =>
          rw [hread] at h
          cases h
          exact .fetched hclock hwaiting hread
        | error e =>
          rw [hread] at h
          cases h
          exact .failed hclock hwaiting hread
      next => cases h

/-- A step of a chronicle is a step of its calls, recorded. -/
theorem Chronicle.stepped {c c' : Chronicle ι Key} {e : Event ι} (h : c.step pyJwk e = some c') :
    ∃ calls answered, c.calls.Stepped pyJwk e calls answered ∧
      c' = c.record pyJwk calls answered e ∧ c.answer pyJwk e = answered := by
  obtain ⟨⟨calls, answered⟩, hstep, rfl⟩ := Option.map_eq_some_iff.mp h
  refine ⟨calls, answered, Calls.stepped hstep, rfl, ?_⟩
  rw [Chronicle.answer, hstep, Option.bind_some]

/-- The cache is what was fetched last, and calls that wait have started. -/
structure Current (c : Chronicle ι Key) : Prop where
  keys : c.calls.client.keys = (c.fetched.head?.map (·.2)).getD []
  fetchedAt : c.calls.client.fetchedAt = c.fetched.head?.map (·.1)
  since : ∀ i kid, c.calls.waiting i = some kid → c.since i ≤ c.calls.clock

omit [DecidableEq ι] in
theorem current_start (cacheSeconds now : Rat) :
    Current (.start cacheSeconds now : Chronicle ι Key) where
  keys := rfl
  fetchedAt := rfl
  since _ _ h := by cases h

/-- A call that returns waits no more, the others wait as before. -/
theorem Current.since_of_returned {c : Chronicle ι Key} (h : Current c) {i j : ι} {now : Rat}
    {kid : Str} (hclock : c.calls.clock ≤ now)
    (hj : Function.update c.calls.waiting i none j = some kid) : c.since j ≤ now := by
  by_cases hij : j = i
  · subst hij
    rw [Function.update_self] at hj
    cases hj
  · rw [Function.update_of_ne hij] at hj
    exact (h.since j kid hj).trans hclock

theorem Current.step {c c' : Chronicle ι Key} {e : Event ι} (h : Current c)
    (hstep : c.step pyJwk e = some c') : Current c' := by
  obtain ⟨calls, answered, hstepped, rfl, -⟩ := Chronicle.stepped hstep
  cases hstepped with
  | @fetch i kid now later hclock hlater hidle =>
    refine ⟨h.keys, h.fetchedAt, fun j kid' hj => ?_⟩
    dsimp only [Chronicle.record] at hj ⊢
    by_cases hij : j = i
    · subst hij
      rw [Function.update_self]
      exact hlater
    · rw [Function.update_of_ne hij] at hj ⊢
      have := h.since j kid' hj
      linarith
  | @hit i kid now later hclock hlater hidle =>
    refine ⟨h.keys, h.fetchedAt, fun j kid' hj => ?_⟩
    dsimp only [Chronicle.record] at hj ⊢
    have hij : j ≠ i := by
      rintro rfl
      cases hidle.symm.trans hj
    rw [Function.update_of_ne hij]
    have := h.since j kid' hj
    linarith
  | @fetched i kid reply now keys hclock hwaiting hread =>
    refine ⟨?_, ?_, fun j kid' hj => ?_⟩
    · simp [Chronicle.record, hread]
    · simp [Chronicle.record, hread]
    · exact h.since_of_returned hclock hj
  | @failed i kid reply now e hclock hwaiting hread =>
    refine ⟨?_, ?_, fun j kid' hj => ?_⟩
    · simpa [Chronicle.record, hread] using h.keys
    · simpa [Chronicle.record, hread] using h.fetchedAt
    · exact h.since_of_returned hclock hj

/-! ## Freshness -/

def Event.caller : Event ι → ι
  | .call i _ _ _ | .reply i _ _ => i

omit [DecidableEq ι] in
/-- The kid that the call of an event asks for. -/
def Chronicle.asks (c : Chronicle ι Key) : Event ι → Option Str
  | .call _ kid _ _ => some kid
  | .reply i _ _ => c.calls.waiting i

omit [DecidableEq ι] in
/-- The key is of the set that was fetched last, by a fetch that completed during the call, or no longer
before the call started than keys are cached. -/
def Fresh (c : Chronicle ι Key) (i : ι) (kid : Str) (key : Key) : Prop :=
  ∃ completed keys earlier, c.fetched = (completed, keys) :: earlier ∧ keys.get kid = some key ∧
    (c.since i ≤ completed ∨ c.since i - completed ≤ c.calls.client.cacheSeconds)

/-- What an event does that leaves the cache to be trusted: keys that are returned are fresh, and a fetch
that fails leaves the keys and their timestamp. -/
structure Trusted (pyJwk : List (Str × Json) → Except FetchError Key) (c : Chronicle ι Key)
    (e : Event ι) : Prop where
  fresh : ∀ c' kid key, c.step pyJwk e = some c' → c.asks e = some kid →
    c.answer pyJwk e = some (.ok (some key)) → Fresh c' e.caller kid key
  unchanged : ∀ c' i reply now err, c.step pyJwk e = some c' → e = .reply i reply now →
    readReply pyJwk reply = .error err → c'.calls.client = c.calls.client

/-- And a fetch that fails says so. -/
structure Sound (pyJwk : List (Str × Json) → Except FetchError Key) (c : Chronicle ι Key)
    (e : Event ι) : Prop extends Trusted pyJwk c e where
  unavailable : ∀ i reply now err, e = .reply i reply now → readReply pyJwk reply = .error err →
    c.answer pyJwk e = some (.error .jwksUnavailableError)

omit [DecidableEq ι] in
/-- A cache that is not expired was filled no longer ago than it is kept. -/
theorem Current.recent {c : Chronicle ι Key} (h : Current c) {now : Rat}
    (hfresh : c.calls.client.expired now = false) :
    ∃ completed keys earlier, c.fetched = (completed, keys) :: earlier ∧
      c.calls.client.keys = keys ∧ now - completed ≤ c.calls.client.cacheSeconds := by
  have hkeys := h.keys
  rw [JwksClient.expired, JwksClient.olderThan, h.fetchedAt] at hfresh
  cases hfetched : c.fetched with
  | nil =>
    rw [hfetched] at hfresh
    cases hfresh
  | cons last earlier =>
    obtain ⟨completed, keys⟩ := last
    rw [hfetched] at hfresh hkeys
    refine ⟨completed, keys, earlier, rfl, hkeys, ?_⟩
    exact not_lt.mp (of_decide_eq_false hfresh)

theorem Current.trusted {c : Chronicle ι Key} (h : Current c) (e : Event ι) :
    Trusted pyJwk c e := by
  constructor
  · intro c' kid key hstep hasks hanswer
    obtain ⟨calls, answered, hstepped, rfl, heq⟩ := Chronicle.stepped hstep
    rw [heq] at hanswer
    cases hstepped with
    | fetch => cases hanswer
    | @hit i kid now later hclock hlater hidle hneeded =>
      cases hasks
      obtain ⟨completed, keys, earlier, hfetched, hkeys, hrecent⟩ :=
        h.recent (Bool.or_eq_false_iff.mp hneeded).1
      refine ⟨completed, keys, earlier, hfetched, ?_, .inr ?_⟩
      · rw [← hkeys]
        exact Except.ok.inj (Option.some.inj hanswer)
      · simpa [Chronicle.record, Event.caller] using hrecent
    | @fetched i kid' reply now keys hclock hwaiting hread =>
      cases hwaiting.symm.trans hasks
      refine ⟨now, keys, c.fetched, by simp [Chronicle.record, hread],
        Except.ok.inj (Option.some.inj hanswer), .inl ?_⟩
      exact (h.since i _ hwaiting).trans hclock
    | failed => cases hanswer
  · rintro c' i reply now err hstep rfl herr
    obtain ⟨calls, answered, hstepped, rfl, -⟩ := Chronicle.stepped hstep
    cases hstepped with
    | fetched _ _ hread => cases herr.symm.trans hread
    | failed => rfl

/-- At an event that takes place, the claims of a fetch about its failure come down to what the reply
raises. -/
theorem Current.sound_iff {c c' : Chronicle ι Key} (h : Current c) {e : Event ι}
    (hstep : c.step pyJwk e = some c') :
    Sound pyJwk c e ↔ ∀ i reply now, e = .reply i reply now → Handled pyJwk reply := by
  have hiff : Sound pyJwk c e ↔ ∀ i reply now err, e = .reply i reply now →
      readReply pyJwk reply = .error err →
        c.answer pyJwk e = some (.error .jwksUnavailableError) :=
    ⟨fun hsound => hsound.unavailable, fun hsays => ⟨h.trusted e, hsays⟩⟩
  rw [hiff]
  refine forall_congr' fun i => forall_congr' fun reply => forall_congr' fun now => ?_
  rw [forall_comm]
  refine forall_congr' fun he => ?_
  subst he
  rw [← readReply_caught_iff]
  obtain ⟨calls, answered, hstepped, -, heq⟩ := Chronicle.stepped hstep
  rw [heq]
  refine forall_congr' fun err => forall_congr' fun herr => ?_
  cases hstepped with
  | fetched _ _ hread => cases herr.symm.trans hread
  | @failed i kid reply now e hclock hwaiting hread =>
    cases herr.symm.trans hread
    cases hcaught : err.caught with
    | true => exact iff_of_true rfl rfl
    | false => exact iff_of_false (fun h => by cases h) fun h => by cases h

theorem Current.run_sound_iff {c c' : Chronicle ι Key} (h : Current c) {events : List (Event ι)}
    (hrun : run (Chronicle.step pyJwk) c events = some c') :
    Along (Chronicle.step pyJwk) (Trusted pyJwk) c events ∧
      (Along (Chronicle.step pyJwk) (Sound pyJwk) c events ↔
        ∀ i reply now, .reply i reply now ∈ events → Handled pyJwk reply) := by
  induction events generalizing c with
  | nil => exact ⟨trivial, iff_of_true trivial fun _ _ _ h => absurd h List.not_mem_nil⟩
  | cons e events ih =>
    obtain ⟨next, hstep, hrest⟩ := Lib.run_cons_eq_some_iff.mp hrun
    obtain ⟨htrusted, hsound⟩ := ih (h.step hstep) hrest
    have hnext : ∀ {P : Chronicle ι Key → Event ι → Prop},
        (∀ t, c.step pyJwk e = some t → Along (Chronicle.step pyJwk) P t events) ↔
          Along (Chronicle.step pyJwk) P next events := by
      intro P
      constructor
      · exact fun hall => hall next hstep
      · intro hone t ht
        cases hstep.symm.trans ht
        exact hone
    refine ⟨⟨h.trusted e, hnext.mpr htrusted⟩, ?_⟩
    rw [Along, hnext, hsound, h.sound_iff hstep]
    constructor
    · rintro ⟨hfirst, hlater⟩ i reply now hmem
      rcases List.mem_cons.mp hmem with heq | hmem
      · exact hfirst i reply now heq.symm
      · exact hlater i reply now hmem
    · intro hall
      refine ⟨fun i reply now heq => hall i reply now ?_, fun i reply now hmem => hall i reply now ?_⟩
      · rw [heq]
        exact List.mem_cons_self
      · exact List.mem_cons_of_mem _ hmem

/-- In every run of any calls: the keys that are returned are fresh and a fetch that fails changes
nothing; and every fetch that fails raises `JwksUnavailableError` exactly if every reply raises only what
the `except` clause names. -/
theorem signing_keys_fresh_iff (pyJwk : List (Str × Json) → Except FetchError Key)
    (cacheSeconds now : Rat) (events : List (Event ι)) (c : Chronicle ι Key)
    (hrun : run (Chronicle.step pyJwk) (.start cacheSeconds now) events = some c) :
    Along (Chronicle.step pyJwk) (Trusted pyJwk) (.start cacheSeconds now) events ∧
      (Along (Chronicle.step pyJwk) (Sound pyJwk) (.start cacheSeconds now) events ↔
        ∀ i reply now, .reply i reply now ∈ events → Handled pyJwk reply) :=
  (current_start cacheSeconds now).run_sound_iff hrun

end Steps

/-- A body with one key. -/
def oneKey : Json :=
  .obj [("keys".toList, .arr [.obj [("kid".toList, .str "a".toList)]])]

/-- A call that fetches, and one that is served from the cache. -/
def servedCalls : List (Event Nat) :=
  [.call 0 "a".toList 0 0, .reply 0 (.ok ⟨200, .ok oneKey⟩) 1, .call 1 "a".toList 2 2]

theorem signing_keys_fresh_iff_served :
    (run (Chronicle.step fun _ => .ok ()) (.start 600 0) servedCalls).isSome ∧
      Along (Chronicle.step fun _ => .ok ()) (Sound fun _ => .ok ()) (.start 600 0) servedCalls := by
  have hruns : (run (Chronicle.step fun _ => .ok ()) (.start 600 0) servedCalls).isSome := by
    decide +kernel
  obtain ⟨c, hrun⟩ := Option.isSome_iff_exists.mp hruns
  refine ⟨hruns, (signing_keys_fresh_iff _ 600 0 servedCalls c hrun).2.mpr ?_⟩
  intro i reply now hmem
  simp only [servedCalls, List.mem_cons, reduceCtorEq, List.not_mem_nil, Event.reply.injEq,
    false_or, or_false] at hmem
  obtain ⟨rfl, rfl, rfl⟩ := hmem
  rw [← readReply_caught_iff]
  exact fun e h => by cases h

/-- A body that lists a string under `keys`. -/
def stringKey : Json := .obj [("keys".toList, .arr [.str "x".toList])]

/-- A call whose fetch is answered with it. -/
def garbledCalls : List (Event Nat) :=
  [.call 0 "a".toList 0 0, .reply 0 (.ok ⟨200, .ok stringKey⟩) 1]

/-- The fetch fails with an exception of its own. -/
theorem garbled_reply_escapes :
    ¬ ∀ (events : List (Event Nat)) (c : Chronicle Nat Unit),
      run (Chronicle.step fun _ => .ok ()) (.start 600 0) events = some c →
        Along (Chronicle.step fun _ => .ok ()) (Sound fun _ => .ok ()) (.start 600 0) events := by
  intro hall
  have hruns : (run (Chronicle.step fun _ => .ok ()) (.start 600 0 : Chronicle Nat Unit)
      garbledCalls).isSome := by
    decide +kernel
  obtain ⟨c, hrun⟩ := Option.isSome_iff_exists.mp hruns
  obtain ⟨waiting, hwaiting, hlast⟩ := Lib.run_cons_eq_some_iff.mp hrun
  have hsound := ((hall garbledCalls c hrun).2 waiting hwaiting).1
  have hsays := hsound.unavailable 0 _ 1 _ rfl rfl
  obtain ⟨last, hstep, -⟩ := Lib.run_cons_eq_some_iff.mp hlast
  obtain ⟨calls, answered, hstepped, -, heq⟩ := Chronicle.stepped hstep
  rw [heq] at hsays
  cases hstepped with
  | fetched _ _ hread => cases hread
  | failed _ _ hread =>
    cases hread
    cases hsays

end ContractIntel.Auth
