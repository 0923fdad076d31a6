import ContractIntel.Laws.Llm.Client
import ContractIntel.Laws.Services.Search
import ContractIntel.Lib.Gather
import ContractIntel.Lib.Stable
import Mathlib.Algebra.Order.Field.Rat
import Mathlib.Tactic.Linarith
import Mathlib.Tactic.Positivity

/-!
# Hybrid fusion

The score dictionary of a fusion gathers the ids of the two rankings in the order of their first
appearance, each with the sum of its shares; the stable sort of it puts the best first and keeps ties
in that order. An item that is nowhere ranked worse than another, and somewhere better, scores more,
so it stands before the other one and no cut takes it away alone (`hybrid_fusion`).
-/

namespace ContractIntel.Search

open Lib (Ahead Every gatherStep)
open Llm (CallerSink OpenAiClient UsageSink)

section Scores

variable {κ : Type} [DecidableEq κ]

/-- The share of an item in a ranking: nothing where it is not ranked. -/
def points (k : Nat) (ranking : List κ) (x : κ) : Rat :=
  if x ∈ ranking then 1 / (k + (ranking.idxOf x + 1 : Nat) : Rat) else 0

/-- The score of an item in a dictionary. -/
def scoreOf (x : κ) : List (κ × Rat) → Rat
  | [] => 0
  | (other, score) :: rest => if other = x then score else scoreOf x rest

variable {k : Nat} {ranking : List κ} {scores : List (κ × Rat)} {x y : κ}

theorem scoreOf_addScore (item : κ) (share : Rat) :
    scoreOf x (addScore item share scores) = scoreOf x scores + if item = x then share else 0 := by
  induction scores with
  | nil =>
    rw [addScore, scoreOf, scoreOf]
    split <;> simp [scoreOf]
  | cons entry rest ih =>
    obtain ⟨other, score⟩ := entry
    rw [addScore]
    by_cases hitem : other = item
    · subst hitem
      rw [if_pos rfl, scoreOf, scoreOf]
      by_cases hx : other = x
      · simp only [if_pos hx]
      · simp only [if_neg hx, add_zero]
    · rw [if_neg hitem, scoreOf, scoreOf, ih]
      by_cases hx : other = x
      · have hne : item ≠ x := fun heq => hitem (hx.trans heq.symm)
        simp only [if_pos hx, if_neg hne, add_zero]
      · simp only [if_neg hx]

theorem map_fst_addScore (item : κ) (share : Rat) : (addScore item share scores).map Prod.fst =
    gatherStep (fun _ _ => true) () (scores.map Prod.fst) item := by
  induction scores with
  | nil => rfl
  | cons entry rest ih =>
    obtain ⟨other, score⟩ := entry
    rw [addScore]
    by_cases hitem : other = item
    · simp [gatherStep, hitem]
    · rw [if_neg hitem, List.map_cons, ih]
      by_cases hmem : item ∈ rest.map Prod.fst
      · simp [gatherStep, hmem]
      · simp [gatherStep, hmem, Ne.symm hitem]

theorem scoreOf_of_mem {entry : κ × Rat} (hnodup : (scores.map Prod.fst).Nodup)
    (h : entry ∈ scores) : entry.2 = scoreOf entry.1 scores := by
  induction scores with
  | nil => cases h
  | cons first rest ih =>
    rw [List.map_cons, List.nodup_cons] at hnodup
    rcases List.mem_cons.mp h with rfl | h
    · rw [scoreOf, if_pos rfl]
    · rw [scoreOf, if_neg, ih hnodup.2 h]
      exact fun heq => hnodup.1 (heq ▸ List.mem_map_of_mem h)

/-- A ranking without repetition adds its points. -/
theorem scoreOf_scoreRanking (h : ranking.Nodup) :
    scoreOf x (scoreRanking k scores ranking) = scoreOf x scores + points k ranking x := by
  have hfrom : ∀ (n : Nat) (scores : List (κ × Rat)),
      scoreOf x ((ranking.zipIdx n).foldl
        (fun scores entry => addScore entry.1 (1 / (k + entry.2 : Rat)) scores) scores) =
      scoreOf x scores + if x ∈ ranking then 1 / (k + (ranking.idxOf x + n : Nat) : Rat) else 0 := by
    induction ranking with
    | nil => simp
    | cons first rest ih =>
      intro n scores
      obtain ⟨hfirst, hrest⟩ := List.nodup_cons.mp h
      rw [List.zipIdx_cons, List.foldl_cons, ih hrest, scoreOf_addScore]
      by_cases hx : first = x
      · subst hx
        simp [hfirst]
      · have hne : x ≠ first := Ne.symm hx
        simp only [if_neg hx, add_zero, List.mem_cons, hne, false_or, List.idxOf_cons_ne _ hx,
          Nat.succ_add, Nat.add_succ]
  exact hfrom 1 scores

/-- And its new items behind the ones that are there. -/
theorem map_fst_scoreRanking (h : ranking.Nodup) : (scoreRanking k scores ranking).map Prod.fst =
    scores.map Prod.fst ++ ranking.filter (· ∉ scores.map Prod.fst) := by
  have hfrom : ∀ (n : Nat) (scores : List (κ × Rat)), ((ranking.zipIdx n).foldl
      (fun scores entry => addScore entry.1 (1 / (k + entry.2 : Rat)) scores) scores).map Prod.fst =
        ranking.foldl (gatherStep (fun _ _ => true) ()) (scores.map Prod.fst) := by
    clear h
    induction ranking with
    | nil => exact fun _ _ => rfl
    | cons first rest ih =>
      intro n scores
      rw [List.zipIdx_cons, List.foldl_cons, ih, map_fst_addScore, List.foldl_cons]
  rw [scoreRanking, hfrom, Lib.foldl_gatherStep h, Lib.gather]
  simp

/-! ## Two rankings -/

/-- The items of two rankings in the order of their first appearance. -/
def appearances (first second : List κ) : List κ := first ++ second.filter (· ∉ first)

/-- In every ranking that has the other item, the item is ranked as well at least, and in one
strictly better, or alone. -/
def Dominates (rankings : List (List κ)) (x y : κ) : Prop :=
  (∀ ranking ∈ rankings, y ∈ ranking → x ∈ ranking ∧ ranking.idxOf x ≤ ranking.idxOf y) ∧
    ∃ ranking ∈ rankings, x ∈ ranking ∧ (y ∈ ranking → ranking.idxOf x < ranking.idxOf y)

theorem points_nonneg : 0 ≤ points k ranking x := by
  unfold points
  split
  · positivity
  · exact le_refl _

theorem points_le (h : y ∈ ranking → x ∈ ranking ∧ ranking.idxOf x ≤ ranking.idxOf y) :
    points k ranking y ≤ points k ranking x := by
  by_cases hy : y ∈ ranking
  · obtain ⟨hx, hle⟩ := h hy
    rw [points, points, if_pos hy, if_pos hx]
    refine one_div_le_one_div_of_le (by positivity) ?_
    have : ((ranking.idxOf x + 1 : Nat) : Rat) ≤ (ranking.idxOf y + 1 : Nat) := by
      exact_mod_cast Nat.succ_le_succ hle
    linarith
  · rw [points, if_neg hy]
    exact points_nonneg

theorem points_lt (hx : x ∈ ranking) (h : y ∈ ranking → ranking.idxOf x < ranking.idxOf y) :
    points k ranking y < points k ranking x := by
  rw [points, points, if_pos hx]
  split
  next hy =>
    refine one_div_lt_one_div_of_lt (by positivity) ?_
    have : ((ranking.idxOf x + 1 : Nat) : Rat) < (ranking.idxOf y + 1 : Nat) := by
      exact_mod_cast Nat.succ_lt_succ (h hy)
    linarith
  next => positivity

section Pair

variable {first second : List κ} (hfirst : first.Nodup) (hsecond : second.Nodup)

/-- An item that dominates another one scores more. -/
theorem score_lt_of_dominates (h : Dominates [first, second] x y) :
    points k first y + points k second y < points k first x + points k second x := by
  obtain ⟨hall, ranking, hmem, hx, hstrict⟩ := h
  have hle₁ := points_le (k := k) (hall first List.mem_cons_self)
  have hle₂ := points_le (k := k) (hall second (List.mem_cons_of_mem _ (List.mem_singleton_self _)))
  have hlt := points_lt (k := k) hx hstrict
  rcases List.mem_pair.mp hmem with rfl | rfl <;> linarith

include hfirst hsecond

/-- The dictionary behind a fusion. -/
theorem scores_of_pair :
    let scores := [first, second].foldl (scoreRanking k) []
    scores.map Prod.fst = appearances first second ∧
      ∀ x, scoreOf x scores = points k first x + points k second x := by
  constructor
  · rw [List.foldl_cons, List.foldl_cons, List.foldl_nil, map_fst_scoreRanking hsecond,
      map_fst_scoreRanking hfirst, appearances]
    simp
  · intro x
    rw [List.foldl_cons, List.foldl_cons, List.foldl_nil, scoreOf_scoreRanking hsecond,
      scoreOf_scoreRanking hfirst, scoreOf, zero_add]

theorem appearances_nodup : (appearances first second).Nodup := by
  refine hfirst.append (hsecond.filter _) fun x hx hx' => ?_
  simpa [hx] using (List.mem_filter.mp hx').2

theorem rrfFuse_perm :
    ((rrfFuse [first, second] k).map Prod.fst).Perm (appearances first second) := by
  rw [← (scores_of_pair (k := k) hfirst hsecond).1]
  exact (List.perm_insertionSort _ _).map _

theorem rrfFuse_score {entry : κ × Rat} (h : entry ∈ rrfFuse [first, second] k) :
    entry.2 = points k first entry.1 + points k second entry.1 := by
  obtain ⟨hkeys, hscores⟩ := scores_of_pair (k := k) hfirst hsecond
  rw [← hscores]
  refine scoreOf_of_mem ?_ ((List.mem_insertionSort _).mp h)
  rw [hkeys]
  exact appearances_nodup hfirst hsecond

/-- Best first, and first come first among ties. -/
theorem rrfFuse_pairwise : (rrfFuse [first, second] k).Pairwise fun a b =>
    b.2 ≤ a.2 ∧ (a.2 ≤ b.2 → Ahead (appearances first second) a.1 b.1) := by
  have hkeys := (scores_of_pair (k := k) hfirst hsecond).1
  have hnodup : ([first, second].foldl (scoreRanking k) []).Nodup := by
    refine List.Nodup.of_map Prod.fst ?_
    rw [hkeys]
    exact appearances_nodup hfirst hsecond
  have : Std.Total fun a b : κ × Rat => b.2 ≤ a.2 := ⟨fun a b => le_total b.2 a.2⟩
  have : IsTrans (κ × Rat) fun a b => b.2 ≤ a.2 := ⟨fun a b c hab hbc => le_trans hbc hab⟩
  refine (Lib.insertionSort_pairwise_stable hnodup).imp fun hab => ⟨hab.1, fun htie => ?_⟩
  rw [← hkeys]
  exact (hab.2 htie).map Prod.fst

/-- What dominates a ranked item stands before it. -/
theorem rrfFuse_ahead (h : Dominates [first, second] x y) (hy : y ∈ appearances first second) :
    Ahead ((rrfFuse [first, second] k).map Prod.fst) x y := by
  obtain ⟨hkeys, hscores⟩ := scores_of_pair (k := k) hfirst hsecond
  have hnodup := appearances_nodup hfirst hsecond
  have hx : x ∈ appearances first second := by
    obtain ⟨ranking, hmem, hx, -⟩ := h.2
    refine List.mem_append.mpr (or_iff_not_imp_left.mpr fun hnot => ?_)
    rcases List.mem_pair.mp hmem with rfl | rfl
    · exact absurd hx hnot
    · exact List.mem_filter.mpr ⟨hx, decide_eq_true hnot⟩
  rw [← hkeys] at hx hy hnodup
  obtain ⟨a, ha, rfl⟩ := List.mem_map.mp hx
  obtain ⟨b, hb, rfl⟩ := List.mem_map.mp hy
  have : Std.Total fun a b : κ × Rat => b.2 ≤ a.2 := ⟨fun a b => le_total b.2 a.2⟩
  have : IsTrans (κ × Rat) fun a b => b.2 ≤ a.2 := ⟨fun a b c hab hbc => le_trans hbc hab⟩
  refine (Lib.ahead_insertionSort ha hb ?_).map Prod.fst
  rw [scoreOf_of_mem hnodup ha, scoreOf_of_mem hnodup hb, hscores, hscores]
  exact not_le.mpr (score_lt_of_dominates h)

end Pair

end Scores

/-! ## The hits -/

/-- The ids of ranked rows. -/
def ids (rows : List (ChunkRow × DocumentRow)) : List Uuid := rows.map (·.1.id)

/-- A hit with the fields of a row. -/
def hitOf (row : ChunkRow × DocumentRow) (score : Rat) : SearchHit :=
  ⟨row.2.id, row.2.sha256, row.2.filename, row.1.id, row.1.ordinal, row.1.text, row.1.charStart,
    row.1.charEnd, score⟩

/-- What a fusion of two rankings returns under a limit. -/
structure Fused (vectorRanked ftsRanked : List (ChunkRow × DocumentRow)) (limit : Nat)
    (hits : List SearchHit) : Prop where
  distinct : (hits.map SearchHit.chunkId).Nodup
  length_le : hits.length ≤ limit
  ranked : ∀ hit ∈ hits, hit.chunkId ∈ ids vectorRanked ∨ hit.chunkId ∈ ids ftsRanked
  score : ∀ hit ∈ hits, hit.score =
    points RRF_K (ids vectorRanked) hit.chunkId + points RRF_K (ids ftsRanked) hit.chunkId
  sorted : hits.Pairwise fun a b => b.score ≤ a.score
  ties : hits.Pairwise fun a b => a.score = b.score →
    Ahead (appearances (ids vectorRanked) (ids ftsRanked)) a.chunkId b.chunkId
  fusion : hits.map SearchHit.chunkId =
    ((rrfFuse [ids vectorRanked, ids ftsRanked] RRF_K).map Prod.fst).take limit
  dominated : ∀ x y, Dominates [ids vectorRanked, ids ftsRanked] x y →
    y ∈ ids vectorRanked ∨ y ∈ ids ftsRanked →
    Ahead ((rrfFuse [ids vectorRanked, ids ftsRanked] RRF_K).map Prod.fst) x y ∧
      (y ∈ hits.map SearchHit.chunkId → Ahead (hits.map SearchHit.chunkId) x y)
  row : ∀ hit ∈ hits, ∃ row ∈ vectorRanked ++ ftsRanked,
    row.1.id = hit.chunkId ∧ hit = hitOf row hit.score
  only : (∀ row ∈ vectorRanked, ∀ other ∈ ftsRanked, row.1.id = other.1.id → row = other) →
    ∀ hit ∈ hits, ∀ row ∈ vectorRanked ++ ftsRanked, row.1.id = hit.chunkId →
      hit = hitOf row hit.score

section Hits

variable {vectorRanked ftsRanked : List (ChunkRow × DocumentRow)} {limit : Nat}

theorem lookup_eq_ok {rows : List (ChunkRow × DocumentRow)} {id : Uuid} {row : ChunkRow × DocumentRow}
    (h : lookup rows id = .ok row) : row ∈ rows ∧ row.1.id = id := by
  unfold lookup at h
  split at h
  next found hfound =>
    cases h
    have hid := List.find?_some hfound
    exact ⟨List.mem_reverse.mp (List.mem_of_find?_eq_some hfound), of_decide_eq_true hid⟩
  next => cases h

/-- A hit is the row with the id that was fused, with its score. -/
theorem toHit_eq_ok {rows : List (ChunkRow × DocumentRow)} {entry : Uuid × Rat} {hit : SearchHit}
    (h : toHit rows entry = .ok hit) :
    ∃ row ∈ rows, row.1.id = entry.1 ∧ hit = hitOf row entry.2 := by
  unfold toHit at h
  cases hrow : lookup rows entry.1 with
  | error e =>
    rw [hrow] at h
    cases h
  | ok row =>
    rw [hrow] at h
    cases h
    obtain ⟨hmem, hid⟩ := lookup_eq_ok hrow
    exact ⟨row, hmem, hid, rfl⟩

/-- A ranking without repetition has one row for an id. -/
theorem eq_of_ids_nodup {rows : List (ChunkRow × DocumentRow)} (hnodup : (ids rows).Nodup)
    {row other : ChunkRow × DocumentRow} (hrow : row ∈ rows) (hother : other ∈ rows)
    (hid : row.1.id = other.1.id) : row = other :=
  List.inj_on_of_nodup_map hnodup hrow hother hid

theorem same_row (hvector : (ids vectorRanked).Nodup) (hfts : (ids ftsRanked).Nodup)
    (hagree : ∀ row ∈ vectorRanked, ∀ other ∈ ftsRanked, row.1.id = other.1.id → row = other)
    {row other : ChunkRow × DocumentRow} (hrow : row ∈ vectorRanked ++ ftsRanked)
    (hother : other ∈ vectorRanked ++ ftsRanked) (hid : row.1.id = other.1.id) : row = other := by
  rcases List.mem_append.mp hrow with hrow | hrow <;>
    rcases List.mem_append.mp hother with hother | hother
  · exact eq_of_ids_nodup hvector hrow hother hid
  · exact hagree row hrow other hother hid
  · exact (hagree other hother row hrow hid.symm).symm
  · exact eq_of_ids_nodup hfts hrow hother hid

/-- Every fusion of two rankings without repetition returns hits. -/
theorem fuseRows_fused (hvector : (ids vectorRanked).Nodup) (hfts : (ids ftsRanked).Nodup)
    (limit : Nat) :
    ∃ hits, fuseRows vectorRanked ftsRanked limit = .ok hits ∧
      Fused vectorRanked ftsRanked limit hits := by
  obtain ⟨hits, hok⟩ := fuseRows_isOk vectorRanked ftsRanked limit
  refine ⟨hits, hok, ?_⟩
  -- the hits are the fused entries up to the limit, one by one
  have hentries : hits.map (fun hit => (hit.chunkId, hit.score)) =
      (rrfFuse [ids vectorRanked, ids ftsRanked] RRF_K).take limit := by
    refine Lib.map_of_mapM hok fun entry _ hit hhit => ?_
    obtain ⟨row, -, hid, rfl⟩ := toHit_eq_ok hhit
    exact Prod.ext hid rfl
  have hrow : ∀ hit ∈ hits, ∃ row ∈ vectorRanked ++ ftsRanked,
      row.1.id = hit.chunkId ∧ hit = hitOf row hit.score := by
    intro hit hhit
    obtain ⟨entry, -, hentry⟩ := Lib.exists_of_mem_mapM hok hhit
    obtain ⟨row, hrow, -, rfl⟩ := toHit_eq_ok hentry
    exact ⟨row, hrow, rfl, rfl⟩
  have hids : hits.map SearchHit.chunkId =
      ((rrfFuse [ids vectorRanked, ids ftsRanked] RRF_K).map Prod.fst).take limit := by
    rw [← List.map_take, ← hentries, List.map_map]
    rfl
  have hmem : ∀ hit ∈ hits,
      (hit.chunkId, hit.score) ∈ rrfFuse [ids vectorRanked, ids ftsRanked] RRF_K := by
    intro hit hhit
    have hhit := List.mem_map_of_mem (f := fun hit : SearchHit => (hit.chunkId, hit.score)) hhit
    rw [hentries] at hhit
    exact List.mem_of_mem_take hhit
  have hperm := rrfFuse_perm (k := RRF_K) hvector hfts
  have hnodup := hperm.nodup_iff.mpr (appearances_nodup hvector hfts)
  have hpairwise : hits.Pairwise fun a b => b.score ≤ a.score ∧ (a.score ≤ b.score →
      Ahead (appearances (ids vectorRanked) (ids ftsRanked)) a.chunkId b.chunkId) := by
    have h := (rrfFuse_pairwise (k := RRF_K) hvector hfts).sublist (List.take_sublist limit _)
    rw [← hentries] at h
    exact List.pairwise_map.mp h
  exact {
    distinct := hids ▸ hnodup.sublist (List.take_sublist _ _)
    length_le := by
      have := congrArg List.length hentries
      rw [List.length_map, List.length_take] at this
      omega
    ranked := fun hit hhit => by
      have hkey := hperm.mem_iff.mp (List.mem_map_of_mem (f := Prod.fst) (hmem hit hhit))
      rcases List.mem_append.mp hkey with hkey | hkey
      · exact .inl hkey
      · exact .inr (List.mem_filter.mp hkey).1
    score := fun hit hhit => rrfFuse_score hvector hfts (hmem hit hhit)
    sorted := hpairwise.imp And.left
    ties := hpairwise.imp fun h heq => h.2 (le_of_eq heq)
    fusion := hids
    dominated := fun x y hdominates hy => by
      have hranked : y ∈ appearances (ids vectorRanked) (ids ftsRanked) := by
        by_cases hfirst : y ∈ ids vectorRanked
        · exact List.mem_append_left _ hfirst
        · exact List.mem_append_right _
            (List.mem_filter.mpr ⟨hy.resolve_left hfirst, decide_eq_true hfirst⟩)
      have hahead := rrfFuse_ahead (k := RRF_K) hvector hfts hdominates hranked
      refine ⟨hahead, fun hreturned => ?_⟩
      rw [hids] at hreturned ⊢
      exact Lib.ahead_take hnodup hahead hreturned
    row := hrow
    only := fun hagree hit hhit row hmem hid => by
      obtain ⟨found, hfound, hid', heq⟩ := hrow hit hhit
      have hsame : found = row := same_row hvector hfts hagree hfound hmem (hid'.trans hid.symm)
      rw [← hsame]
      exact heq }

end Hits

/-! ## Runs -/

/-- A ranking query. -/
def ranks : Op → Bool
  | .rankBySimilarity .. | .rankByFullText .. => true
  | _ => false

/-- The two rankings of a run. -/
def Ranked (trace : List Entry) (tenantId : Uuid) (documentId : Option Uuid) (query : Str)
    (depth : Nat) (vectorRanked ftsRanked : List (ChunkRow × DocumentRow)) : Prop :=
  (∃ embedding a, ⟨.rankBySimilarity tenantId documentId embedding depth, a, .ok vectorRanked⟩ ∈ trace) ∧
    ∃ a, ⟨.rankByFullText tenantId documentId query depth, a, .ok ftsRanked⟩ ∈ trace

section Runs

variable {env : Store → Store → Prop} {usageSink : UsageSink}

/-- Before the rankings a search makes its call and writes the usage row. -/
theorem embedding_performs (llm : OpenAiClient) (query : Str) (hsink : CallerSink usageSink) :
    ((Llm.embed llm [query]).bind fun reply => (usageSink reply.usage).bind fun _ =>
      lift (unpackOne reply.vectors)).Performs fun o => ranks o = false := by
  refine .bind (.bind (.tryCatch (.call rfl) fun _ => .raise _) fun _ => .ofResult _) fun reply =>
    .bind ?_ fun _ => .ofResult _
  cases hsink with
  | none => exact .ret _
  | account => exact .call rfl

theorem hybridHits_eq (llm : OpenAiClient) (tenantId : Uuid) (documentId : Option Uuid) (query : Str)
    (limit : Nat) : hybridHits llm tenantId documentId query limit usageSink =
      ((Llm.embed llm [query]).bind fun reply => (usageSink reply.usage).bind fun _ =>
        lift (unpackOne reply.vectors)).bind fun embedding =>
      (perform (.rankBySimilarity tenantId documentId embedding
        (limit * CANDIDATE_DEPTH_FACTOR))).bind fun vectorRanked =>
      (perform (.rankByFullText tenantId documentId query
        (limit * CANDIDATE_DEPTH_FACTOR))).bind fun ftsRanked =>
      lift (fuseRows vectorRanked ftsRanked limit) := by
  simp only [Lib.Prog.bind_assoc]
  rfl

/-- What a hybrid search returns is the fusion of the two rankings it read, and on rankings without
repetition it returns. -/
theorem hybrid_fusion (env : Store → Store → Prop) (llm : OpenAiClient) (tenantId : Uuid)
    (documentId : Option Uuid) (query : Str) (limit : Nat) {usageSink : UsageSink}
    (hsink : CallerSink usageSink) (l : Session) (s : Store) :
    Every exec env (hybridHits llm tenantId documentId query limit usageSink) l s
      fun trace res _ _ =>
        let depth := limit * CANDIDATE_DEPTH_FACTOR
        (∀ hits, res = .ok hits → ∃ vectorRanked ftsRanked,
          Ranked trace tenantId documentId query depth vectorRanked ftsRanked) ∧
        ∀ vectorRanked ftsRanked,
          Ranked trace tenantId documentId query depth vectorRanked ftsRanked →
          (ids vectorRanked).Nodup → (ids ftsRanked).Nodup →
            ∃ hits, res = .ok hits ∧ Fused vectorRanked ftsRanked limit hits := by
  rw [hybridHits_eq]
  refine Every.bind.mpr ((Every.trace_of_performs (embedding_performs llm query hsink)).mono ?_)
  intro trace res l' t hquiet
  have hsilent : ∀ o a r, ranks o = true → ⟨o, a, r⟩ ∉ trace := fun o a r hranks hentry =>
    Bool.noConfusion (hranks.symm.trans (hquiet _ hentry))
  cases res with
  | error e =>
    refine ⟨fun hits h => (by cases h), fun vectorRanked ftsRanked hranked => ?_⟩
    obtain ⟨⟨embedding, a, hentry⟩, -⟩ := hranked
    exact absurd hentry (hsilent _ _ _ rfl)
  | ok embedding =>
    refine Every.bind.mpr (Every.call.mpr fun moved a _ => ?_)
    cases hvector : (exec (.rankBySimilarity tenantId documentId embedding
        (limit * CANDIDATE_DEPTH_FACTOR)) a l' moved).1 with
    | error e =>
      refine ⟨fun hits h => (by cases h), fun vectorRanked ftsRanked hranked => ?_⟩
      obtain ⟨-, b, hentry⟩ := hranked
      rcases List.mem_append.mp hentry with hentry | hentry
      · exact absurd hentry (hsilent _ _ _ rfl)
      · cases List.mem_singleton.mp hentry
    | ok vectorRanked =>
      refine Every.bind.mpr (Every.call.mpr fun moved' b _ => ?_)
      cases hfts : (exec (.rankByFullText tenantId documentId query
          (limit * CANDIDATE_DEPTH_FACTOR)) b _ moved').1 with
      | error e =>
        refine ⟨fun hits h => (by cases h), fun vectorRanked' ftsRanked hranked => ?_⟩
        obtain ⟨-, b', hentry⟩ := hranked
        rcases List.mem_append.mp hentry with hentry | hentry
        · exact absurd hentry (hsilent _ _ _ rfl)
        · rcases List.mem_pair.mp hentry with heq | heq <;> cases heq
      | ok ftsRanked =>
        refine Every.ofResult.mpr ⟨fun hits _ => ⟨vectorRanked, ftsRanked, ?_⟩,
          fun vectorRanked' ftsRanked' hranked => ?_⟩
        · exact ⟨⟨embedding, a, by simp⟩, b, by simp⟩
        · obtain ⟨⟨embedding', a', hvector'⟩, b', hfts'⟩ := hranked
          have hsame : vectorRanked' = vectorRanked := by
            rcases List.mem_append.mp hvector' with hentry | hentry
            · exact absurd hentry (hsilent _ _ _ rfl)
            · rcases List.mem_pair.mp hentry with heq | heq <;> cases heq
              rfl
          have hsame' : ftsRanked' = ftsRanked := by
            rcases List.mem_append.mp hfts' with hentry | hentry
            · exact absurd hentry (hsilent _ _ _ rfl)
            · rcases List.mem_pair.mp hentry with heq | heq <;> cases heq
              rfl
          rw [hsame, hsame']
          exact fun hvector hfts => fuseRows_fused hvector hfts limit

end Runs

/-- Two chunks of one document. -/
def twoChunks : Store :=
  { Store.empty 0 with
    documents := [⟨10, 1, "a.txt".toList, Parsing.TEXT_MIME, [], none, .parsed, 0⟩]
    chunks := [⟨30, 1, 10, 0, "Pay.".toList, 0, 4, none⟩, ⟨31, 1, 10, 1, "Stop.".toList, 6, 11, none⟩] }

/-- A search for one hit, the second chunk ranked by both queries and the first one by similarity. -/
theorem hybrid_fusion_two :
    ((Lib.replay exec (hybridHits ⟨[], "text-embedding-3-small".toList⟩ 1 none "stop".toList 1
        UsageSink.none) ⟨false⟩ twoChunks
        [{ embed := .replied none 0 [(0, [])] }, { ranking := [30, 31] }, { ranking := [31] }]).map
      fun r => r.2.1.toOption.map fun hits => hits.map SearchHit.chunkId) = some (some [31]) ∧
    Every exec Eq (hybridHits ⟨[], "text-embedding-3-small".toList⟩ 1 none "stop".toList 1
      UsageSink.none) ⟨false⟩ twoChunks fun trace res _ _ =>
        (∀ hits, res = .ok hits → ∃ vectorRanked ftsRanked,
          Ranked trace 1 none "stop".toList 2 vectorRanked ftsRanked) ∧
        ∀ vectorRanked ftsRanked, Ranked trace 1 none "stop".toList 2 vectorRanked ftsRanked →
          (ids vectorRanked).Nodup → (ids ftsRanked).Nodup →
            ∃ hits, res = .ok hits ∧ Fused vectorRanked ftsRanked 1 hits :=
  ⟨by decide +kernel, hybrid_fusion Eq _ 1 none "stop".toList 1 .none ⟨false⟩ twoChunks⟩

end ContractIntel.Search
