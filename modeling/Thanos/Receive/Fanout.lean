import Mathlib
import Thanos.Lib.Tally

/-! # The fan-out of a remote write

`Handler.fanoutForward` splits a write request over the replicas of each series
(`distributeTimeseriesToReplicas`: one write per destination, an endpoint and a replica
number, and tenant), sends the writes and reads their responses as they arrive. A failed write
adds its error to the series it carried; a successful one counts for them, and once every
series has `writeQuorum()` successes (one when the request was replicated already) the request
is acknowledged. When every response has arrived without that, the errors of all series are
returned; when the request's context ends first, the context's error.

The writes run concurrently, so the responses arrive in any order: the theorems hold for every
order the channel can deliver them in (`Delivers`). Each series goes exactly once to each
replica number, to the endpoint the hashring gives it (`distribute_ok`), so the successes a
series counts come from distinct replicas (`fanoutForward_quorum`); when every response
arrives, the request is acknowledged exactly when each series has a quorum of successful
writes (`fanoutForward_complete`), and it is when every write succeeds. Errors are their
messages; metrics, tracing and the write statistics are left out. -/

namespace Thanos.Receive

open Tally

variable {E S : Type}

structure EndpointReplica (E : Type) where
  endpoint : E
  replica : Nat
  deriving DecidableEq, Repr

/-- A tenant's `trackedSeries` under its destination: the series sent and their positions in
the request. -/
structure TrackedSeries (E S : Type) where
  er : EndpointReplica E
  tenant : String
  seriesIDs : List Nat
  timeSeries : List S
  deriving DecidableEq, Repr

structure WriteResponse (E : Type) where
  seriesIDs : List Nat
  err : Option String
  er : EndpointReplica E
  deriving DecidableEq, Repr

/-- What `fanoutForward` reads next: a response from the channel, or the end of the request's
context with its error. -/
inductive Arrival (E : Type) where
  | response (resp : WriteResponse E)
  | ctxDone (err : String)
  deriving DecidableEq, Repr

/-- What the fan-out reads of the handler: the label that splits tenants, a series' label by
name and the series without it, `hashring.GetN`, whether an endpoint has this node's address,
and the replication factor. -/
structure FanoutEnv (E S : Type) where
  splitTenantLabelName : String
  labelsGet : S → String → String
  labelsDel : S → String → S
  getN : String → S → Nat → Except String E
  hasAddress : E → Bool
  replicationFactor : Nat

/-! ## `distributeTimeseriesToReplicas` -/

/-- The tenant a series is written for and the series as it is sent: the value of the split
label when it is set and present, with the label removed. -/
def splitTenant (env : FanoutEnv E S) (tenantHTTP : String) (ts : S) : String × S :=
  if env.splitTenantLabelName ≠ "" then
    let tenantLabel := env.labelsGet ts env.splitTenantLabelName
    if tenantLabel ≠ "" then (tenantLabel, env.labelsDel ts env.splitTenantLabelName)
    else (tenantHTTP, ts)
  else (tenantHTTP, ts)

section Distribute

variable [DecidableEq E]

/-- `writeDestination[endpointReplica][tenant]` with the series appended, the entry made when
there is none. -/
def appendTracked (writes : List (TrackedSeries E S)) (er : EndpointReplica E) (tenant : String)
    (tsIndex : Nat) (ts : S) : List (TrackedSeries E S) :=
  if writes.any fun t => t.er = er ∧ t.tenant = tenant then
    writes.map fun t =>
      if t.er = er ∧ t.tenant = tenant then
        { t with timeSeries := t.timeSeries ++ [ts], seriesIDs := t.seriesIDs ++ [tsIndex] }
      else t
  else writes ++ [⟨er, tenant, [tsIndex], [ts]⟩]

/-- The loop over `replicas` for the series at `tsIndex`: the local and the remote writes. -/
def replicasLoop (env : FanoutEnv E S) (tenant : String) (tsIndex : Nat) (ts : S) :
    List Nat → List (TrackedSeries E S) × List (TrackedSeries E S) →
      Except String (List (TrackedSeries E S) × List (TrackedSeries E S))
  | [], writes => .ok writes
  | rn :: rns, (localWrites, remoteWrites) =>
    match env.getN tenant ts rn with
    | .error err => .error err
    | .ok endpoint =>
      if env.hasAddress endpoint then
        replicasLoop env tenant tsIndex ts rns
          (appendTracked localWrites ⟨endpoint, rn⟩ tenant tsIndex ts, remoteWrites)
      else
        replicasLoop env tenant tsIndex ts rns
          (localWrites, appendTracked remoteWrites ⟨endpoint, rn⟩ tenant tsIndex ts)

/-- The loop over the series of the request, from the one at `tsIndex`. -/
def distributeLoop (env : FanoutEnv E S) (tenantHTTP : String) (replicas : List Nat) :
    Nat → List S → List (TrackedSeries E S) × List (TrackedSeries E S) →
      Except String (List (TrackedSeries E S) × List (TrackedSeries E S))
  | _, [], writes => .ok writes
  | tsIndex, ts :: rest, writes =>
    let (tenant, ts) := splitTenant env tenantHTTP ts
    match replicasLoop env tenant tsIndex ts replicas writes with
    | .error err => .error err
    | .ok writes => distributeLoop env tenantHTTP replicas (tsIndex + 1) rest writes

/-- `distributeTimeseriesToReplicas`: the local writes and the remote ones. -/
def distributeTimeseriesToReplicas (env : FanoutEnv E S) (tenantHTTP : String)
    (replicas : List Nat) (timeseries : List S) :
    Except String (List (TrackedSeries E S) × List (TrackedSeries E S)) :=
  distributeLoop env tenantHTTP replicas 0 timeseries ([], [])

end Distribute

/-! ## Collecting the responses -/

/-- The replica numbers of a request: the one it was replicated to already, or all. -/
def writeReplicas (replicated : Bool) (n replicationFactor : Nat) : List Nat :=
  if replicated then [n] else List.range replicationFactor

/-- `writeQuorum`: a majority of the replicas, and one of two. -/
def writeQuorum (replicationFactor : Nat) : Nat :=
  if replicationFactor = 2 then 1 else replicationFactor / 2 + 1

def quorumReached (successes : List Nat) (successThreshold : Nat) : Bool :=
  successes.all fun success => !decide (success < successThreshold)

/-- `errorSet.Error`: the distinct reasons sorted, joined by "; ", counted when more than
one. -/
def errorSetError (reasons : List String) : String :=
  let sorted := reasons.dedup.mergeSort fun a b => decide (a ≤ b)
  if sorted.length = 0 then ""
  else
    let n := sorted.length
    (if n > 1 then s!"{n} errors: " else "") ++ "; ".intercalate sorted

/-- The loop of `fanoutForward` over what arrives, with the successes and the errors of each
series. -/
def fanoutLoop (quorum : Nat) :
    List Nat → List (List String) → List (Arrival E) → Except String Unit
  | _, seriesErrs, [] =>
    -- the channel is closed: `writeErrors.Add` of each series' `replicationErrors`, never nil
    if seriesErrs.length = 0 then .ok () else .error (errorSetError seriesErrs.flatten)
  | _, _, .ctxDone err :: _ => .error err
  | successes, seriesErrs, .response resp :: rest =>
    match resp.err with
    | some err =>
      fanoutLoop quorum successes
        (resp.seriesIDs.foldl (fun errs seriesID => errs.modify seriesID (· ++ [err])) seriesErrs)
        rest
    | none =>
      let successes := bump successes resp.seriesIDs
      if quorumReached successes quorum then .ok ()
      else fanoutLoop quorum successes seriesErrs rest

/-- `fanoutForward`, reading `arrivals` from the channel the writes answer on. -/
def fanoutForward [DecidableEq E] (env : FanoutEnv E S) (tenant : String) (replicas : List Nat)
    (alreadyReplicated : Bool) (timeseries : List S) (arrivals : List (Arrival E)) :
    Except String Unit :=
  match distributeTimeseriesToReplicas env tenant replicas timeseries with
  | .error err => .error err
  | .ok _ =>
    let quorum := if alreadyReplicated then 1 else writeQuorum env.replicationFactor
    fanoutLoop quorum (List.replicate timeseries.length 0)
      (List.replicate timeseries.length []) arrivals

/-- The response a write sends, with its outcome. -/
def respond (t : TrackedSeries E S) (err : Option String) : WriteResponse E :=
  ⟨t.seriesIDs, err, t.er⟩

/-- What the channel delivers for `writes`: one response to each, in any order and with any
outcome, all of them, or those read before the context ended. Go sends the local writes' first;
that order is one of these. -/
def Delivers (writes : List (TrackedSeries E S)) (arrivals : List (Arrival E)) : Prop :=
  ∃ sent : List (TrackedSeries E S × Option String),
    ((sent.map Prod.fst).Perm writes ∧
        arrivals = sent.map fun p => .response (respond p.1 p.2)) ∨
      ((sent.map Prod.fst).Subperm writes ∧
        ∃ err, arrivals = (sent.map fun p => .response (respond p.1 p.2)) ++ [.ctxDone err])

/-! ## Where each series goes -/

/-- The destinations and tenants of some writes. -/
def keysOf (writes : List (TrackedSeries E S)) : List (EndpointReplica E × String) :=
  writes.map fun t => (t.er, t.tenant)

/-- The weight a write gives a series: `f` of its destination and tenant, once per time it
carries the series. -/
def trackedWeight (f : EndpointReplica E → String → Nat) (t : TrackedSeries E S) (i : Nat) :
    Nat :=
  f t.er t.tenant * t.seriesIDs.count i

/-- The weight `f` gives the destination the hashring names for a series and a replica. -/
def destWeight (env : FanoutEnv E S) (f : EndpointReplica E → String → Nat) (tenant : String)
    (ts : S) (rn : Nat) : Nat :=
  match env.getN tenant ts rn with
  | .ok endpoint => f ⟨endpoint, rn⟩ tenant
  | .error _ => 0

/-- The weight `f` gives the destinations of the `i`-th series, over the replicas. -/
def seriesWeight (env : FanoutEnv E S) (tenantHTTP : String) (replicas : List Nat)
    (f : EndpointReplica E → String → Nat) (timeseries : List S) (i : Nat) : Nat :=
  match timeseries[i]? with
  | none => 0
  | some ts =>
    (replicas.map (destWeight env f (splitTenant env tenantHTTP ts).1
      (splitTenant env tenantHTTP ts).2)).sum

/-- The writes gathered so far: one per destination and tenant, the local ones to endpoints
with this node's address and the remote ones to the others. -/
structure Gathered (env : FanoutEnv E S) (localWrites remoteWrites : List (TrackedSeries E S)) :
    Prop where
  local_keys : (keysOf localWrites).Nodup
  remote_keys : (keysOf remoteWrites).Nodup
  local_here : ∀ t ∈ localWrites, env.hasAddress t.er.endpoint = true
  remote_away : ∀ t ∈ remoteWrites, env.hasAddress t.er.endpoint = false

section Gather

variable [DecidableEq E] {env : FanoutEnv E S}

theorem keysOf_appendTracked {writes : List (TrackedSeries E S)} (hkeys : (keysOf writes).Nodup)
    (er : EndpointReplica E) (tenant : String) (j : Nat) (ts : S) :
    (keysOf (appendTracked writes er tenant j ts)).Nodup := by
  unfold appendTracked
  split_ifs with hany
  · have : keysOf (writes.map fun t =>
        if t.er = er ∧ t.tenant = tenant then
          { t with timeSeries := t.timeSeries ++ [ts], seriesIDs := t.seriesIDs ++ [j] }
        else t) = keysOf writes := by
      simp only [keysOf, List.map_map]
      refine List.map_congr_left fun t _ => ?_
      simp only [Function.comp_apply]
      split_ifs <;> rfl
    rwa [this]
  · rw [keysOf, List.map_append, List.map_singleton, List.nodup_append]
    refine ⟨hkeys, List.nodup_singleton _, fun a ha b hb hab => ?_⟩
    rw [List.mem_singleton] at hb
    subst hb hab
    obtain ⟨t, ht, heq⟩ := List.mem_map.mp ha
    simp only [Prod.mk.injEq] at heq
    exact hany (List.any_eq_true.mpr ⟨t, ht, by simp [heq]⟩)

theorem mem_appendTracked {writes : List (TrackedSeries E S)} {er : EndpointReplica E}
    {tenant : String} {j : Nat} {ts : S} {t : TrackedSeries E S}
    (h : t ∈ appendTracked writes er tenant j ts) : t.er = er ∨ ∃ t' ∈ writes, t'.er = t.er := by
  unfold appendTracked at h
  split_ifs at h
  · obtain ⟨t', ht', rfl⟩ := List.mem_map.mp h
    split_ifs with hmatch
    · exact .inr ⟨t', ht', rfl⟩
    · exact .inr ⟨t', ht', rfl⟩
  · rcases List.mem_append.mp h with h | h
    · exact .inr ⟨t, h, rfl⟩
    · rw [List.mem_singleton] at h
      exact .inl (h ▸ rfl)

/-- Appending a series to the entry of a destination and tenant adds its weight once. -/
theorem tally_appendTracked {writes : List (TrackedSeries E S)} (hkeys : (keysOf writes).Nodup)
    (er : EndpointReplica E) (tenant : String) (j : Nat) (ts : S)
    (f : EndpointReplica E → String → Nat) (i : Nat) :
    tally (trackedWeight f) (appendTracked writes er tenant j ts) i =
      tally (trackedWeight f) writes i + if j = i then f er tenant else 0 := by
  unfold appendTracked
  by_cases hany : (writes.any fun t => t.er = er ∧ t.tenant = tenant) = true
  · rw [if_pos hany]
    induction writes with
    | nil => simp at hany
    | cons t ws ih =>
      simp only [keysOf, List.map_cons, List.nodup_cons] at hkeys
      rw [List.map_cons, tally_cons, tally_cons]
      by_cases ht : t.er = er ∧ t.tenant = tenant
      · have hrest : ∀ t' ∈ ws, ¬(t'.er = er ∧ t'.tenant = tenant) := fun t' ht' h' =>
          hkeys.1 (List.mem_map.mpr ⟨t', ht', by rw [h'.1, h'.2, ht.1, ht.2]⟩)
        rw [if_pos ht, List.map_congr_left (fun t' ht' => if_neg (hrest t' ht')), List.map_id']
        obtain ⟨hter, htenant⟩ := ht
        simp only [trackedWeight, hter, htenant, List.count_append, List.count_singleton,
          beq_iff_eq]
        split_ifs <;> ring
      · rw [if_neg ht]
        have hany' : (ws.any fun t => t.er = er ∧ t.tenant = tenant) = true := by
          simpa [ht] using hany
        rw [ih hkeys.2 hany']
        omega
  · rw [if_neg hany, tally_append, tally_cons, tally_nil]
    simp only [trackedWeight, List.count_singleton, beq_iff_eq]
    split_ifs <;> simp

theorem Gathered.append_local {lw rw : List (TrackedSeries E S)} (h : Gathered env lw rw)
    {er : EndpointReplica E} (hhere : env.hasAddress er.endpoint = true) (tenant : String)
    (j : Nat) (ts : S) : Gathered env (appendTracked lw er tenant j ts) rw := by
  refine ⟨keysOf_appendTracked h.local_keys er tenant j ts, h.remote_keys, fun t ht => ?_,
    h.remote_away⟩
  rcases mem_appendTracked ht with hter | ⟨t', ht', hter⟩
  · rwa [hter]
  · rw [← hter]
    exact h.local_here t' ht'

theorem Gathered.append_remote {lw rw : List (TrackedSeries E S)} (h : Gathered env lw rw)
    {er : EndpointReplica E} (haway : env.hasAddress er.endpoint = false) (tenant : String)
    (j : Nat) (ts : S) : Gathered env lw (appendTracked rw er tenant j ts) := by
  refine ⟨h.local_keys, keysOf_appendTracked h.remote_keys er tenant j ts, h.local_here,
    fun t ht => ?_⟩
  rcases mem_appendTracked ht with hter | ⟨t', ht', hter⟩
  · rwa [hter]
  · rw [← hter]
    exact h.remote_away t' ht'

end Gather

theorem seriesWeight_cons_zero (env : FanoutEnv E S) (tenantHTTP : String)
    (replicas : List Nat) (f : EndpointReplica E → String → Nat) (ts : S) (rest : List S) :
    seriesWeight env tenantHTTP replicas f (ts :: rest) 0 =
      (replicas.map (destWeight env f (splitTenant env tenantHTTP ts).1
        (splitTenant env tenantHTTP ts).2)).sum := rfl

theorem seriesWeight_cons_succ (env : FanoutEnv E S) (tenantHTTP : String)
    (replicas : List Nat) (f : EndpointReplica E → String → Nat) (ts : S) (rest : List S)
    (k : Nat) :
    seriesWeight env tenantHTTP replicas f (ts :: rest) (k + 1) =
      seriesWeight env tenantHTTP replicas f rest k := rfl

theorem Gathered.nil (env : FanoutEnv E S) : Gathered env [] [] :=
  ⟨List.nodup_nil, List.nodup_nil, fun _ h => absurd h List.not_mem_nil,
    fun _ h => absurd h List.not_mem_nil⟩

section Loops

variable [DecidableEq E] {env : FanoutEnv E S}

/-- The loop over the replicas gives the series once to the destination of each. -/
theorem replicasLoop_ok (tenant : String) (j : Nat) (ts : S) :
    ∀ (rns : List Nat) (lw rw lw' rw' : List (TrackedSeries E S)), Gathered env lw rw →
    replicasLoop env tenant j ts rns (lw, rw) = .ok (lw', rw') →
    Gathered env lw' rw' ∧ ∀ f i, tally (trackedWeight f) (lw' ++ rw') i =
      tally (trackedWeight f) (lw ++ rw) i +
        if j = i then (rns.map (destWeight env f tenant ts)).sum else 0
  | [], lw, rw, lw', rw', hg, h => by
    cases h
    exact ⟨hg, fun f i => by simp⟩
  | rn :: rns, lw, rw, lw', rw', hg, h => by
    unfold replicasLoop at h
    cases hget : env.getN tenant ts rn with
    | error err =>
      rw [hget] at h
      cases h
    | ok endpoint =>
      rw [hget] at h
      dsimp only at h
      have hdest : ∀ f, destWeight env f tenant ts rn = f ⟨endpoint, rn⟩ tenant := fun f => by
        rw [destWeight, hget]
      cases hhere : env.hasAddress endpoint with
      | true =>
        rw [if_pos hhere] at h
        obtain ⟨hg', htally⟩ :=
          replicasLoop_ok tenant j ts rns _ _ lw' rw' (hg.append_local hhere tenant j ts) h
        refine ⟨hg', fun f i => ?_⟩
        rw [htally, tally_append, tally_append, tally_appendTracked hg.local_keys, List.map_cons,
          List.sum_cons, hdest]
        split_ifs <;> omega
      | false =>
        rw [if_neg (by simp [hhere])] at h
        obtain ⟨hg', htally⟩ :=
          replicasLoop_ok tenant j ts rns _ _ lw' rw' (hg.append_remote hhere tenant j ts) h
        refine ⟨hg', fun f i => ?_⟩
        rw [htally, tally_append, tally_append, tally_appendTracked hg.remote_keys, List.map_cons,
          List.sum_cons, hdest]
        split_ifs <;> omega

/-- The loop over the series, from the one at `j`, gives each its destinations. -/
theorem distributeLoop_ok (tenantHTTP : String) (replicas : List Nat) :
    ∀ (rest : List S) (j : Nat) (lw rw lw' rw' : List (TrackedSeries E S)), Gathered env lw rw →
    distributeLoop env tenantHTTP replicas j rest (lw, rw) = .ok (lw', rw') →
    Gathered env lw' rw' ∧ ∀ f i, tally (trackedWeight f) (lw' ++ rw') i =
      tally (trackedWeight f) (lw ++ rw) i +
        if j ≤ i then seriesWeight env tenantHTTP replicas f rest (i - j) else 0
  | [], j, lw, rw, lw', rw', hg, h => by
    cases h
    refine ⟨hg, fun f i => ?_⟩
    split_ifs <;> simp [seriesWeight]
  | ts :: rest, j, lw, rw, lw', rw', hg, h => by
    unfold distributeLoop at h
    generalize hsplit : splitTenant env tenantHTTP ts = sp at h
    obtain ⟨tenant, ts'⟩ := sp
    dsimp only at h
    cases hrep : replicasLoop env tenant j ts' replicas (lw, rw) with
    | error err =>
      rw [hrep] at h
      cases h
    | ok w =>
      rw [hrep] at h
      obtain ⟨lw₁, rw₁⟩ := w
      obtain ⟨hg₁, htally₁⟩ := replicasLoop_ok tenant j ts' replicas lw rw lw₁ rw₁ hg hrep
      obtain ⟨hg', htally'⟩ := distributeLoop_ok tenantHTTP replicas rest (j + 1) lw₁ rw₁ lw' rw' hg₁ h
      refine ⟨hg', fun f i => ?_⟩
      rw [htally', htally₁]
      -- the series at `j` is the first of `ts :: rest`, the later ones are `rest`
      rcases Nat.lt_trichotomy i j with hij | rfl | hij
      · rw [if_neg (by omega), if_neg (by omega), if_neg (by omega)]
      · rw [if_pos rfl, if_neg (by omega), if_pos le_rfl, Nat.sub_self, seriesWeight_cons_zero,
          hsplit]
        rfl
      · obtain ⟨k, rfl⟩ : ∃ k, i = j + 1 + k := ⟨i - (j + 1), by omega⟩
        rw [if_neg (by omega), if_pos (by omega), if_pos (by omega),
          show j + 1 + k - j = k + 1 by omega, seriesWeight_cons_succ,
          show j + 1 + k - (j + 1) = k by omega]
        omega

theorem replicasLoop_isOk {tenant : String} {j : Nat} {ts : S}
    (hget : ∀ rn, ∃ e, env.getN tenant ts rn = .ok e) :
    ∀ (rns : List Nat) (w : List (TrackedSeries E S) × List (TrackedSeries E S)),
      ∃ w', replicasLoop env tenant j ts rns w = .ok w'
  | [], w => ⟨w, rfl⟩
  | rn :: rns, (lw, rw) => by
    obtain ⟨endpoint, hrn⟩ := hget rn
    unfold replicasLoop
    rw [hrn]
    dsimp only
    split
    · exact replicasLoop_isOk hget rns _
    · exact replicasLoop_isOk hget rns _

theorem distributeLoop_isOk {tenantHTTP : String} {replicas : List Nat}
    (hget : ∀ tenant ts rn, ∃ e, env.getN tenant ts rn = .ok e) :
    ∀ (rest : List S) (j : Nat) (w : List (TrackedSeries E S) × List (TrackedSeries E S)),
      ∃ w', distributeLoop env tenantHTTP replicas j rest w = .ok w'
  | [], _, w => ⟨w, rfl⟩
  | ts :: rest, j, w => by
    unfold distributeLoop
    obtain ⟨w₁, h₁⟩ := replicasLoop_isOk (j := j) (hget (splitTenant env tenantHTTP ts).1
      (splitTenant env tenantHTTP ts).2) replicas w
    dsimp only
    rw [h₁]
    exact distributeLoop_isOk hget rest (j + 1) w₁

end Loops

/-- With the weight of one replica number, a series weighs at most as often as the number
stands among the replicas. -/
theorem seriesWeight_replica_le (env : FanoutEnv E S) (tenantHTTP : String) (replicas : List Nat) (timeseries : List S)
    (rn i : Nat) :
    seriesWeight env tenantHTTP replicas (fun er _ => if er.replica = rn then 1 else 0)
      timeseries i ≤ replicas.count rn := by
  unfold seriesWeight
  split
  · exact Nat.zero_le _
  · rename_i ts _
    induction replicas with
    | nil => exact Nat.le_refl 0
    | cons rn' rns ih =>
      rw [List.map_cons, List.sum_cons, List.count_cons]
      have hdest : destWeight env (fun er _ => if er.replica = rn then 1 else 0)
          (splitTenant env tenantHTTP ts).1 (splitTenant env tenantHTTP ts).2 rn' ≤
            if rn' = rn then 1 else 0 := by
        unfold destWeight
        split <;> split_ifs <;> simp_all
      have : (if rn' = rn then 1 else 0) = if (rn' == rn) = true then 1 else 0 := by simp
      omega

section Spec

variable [DecidableEq E] {env : FanoutEnv E S}

theorem replicasLoop_getN {tenant : String} {j : Nat} {ts : S} :
    ∀ {rns : List Nat} {w w' : List (TrackedSeries E S) × List (TrackedSeries E S)},
      replicasLoop env tenant j ts rns w = .ok w' → ∀ rn ∈ rns, ∃ e, env.getN tenant ts rn = .ok e
  | [], _, _, _, _, hrn => absurd hrn List.not_mem_nil
  | rn₀ :: rns, (lw, rw), w', h, rn, hrn => by
    unfold replicasLoop at h
    cases hget : env.getN tenant ts rn₀ with
    | error err =>
      rw [hget] at h
      cases h
    | ok endpoint =>
      rw [hget] at h
      dsimp only at h
      rcases List.mem_cons.mp hrn with rfl | hrn
      · exact ⟨endpoint, hget⟩
      · split at h
        · exact replicasLoop_getN h rn hrn
        · exact replicasLoop_getN h rn hrn

theorem distributeLoop_getN {tenantHTTP : String} {replicas : List Nat} :
    ∀ {rest : List S} {j : Nat} {w w' : List (TrackedSeries E S) × List (TrackedSeries E S)},
      distributeLoop env tenantHTTP replicas j rest w = .ok w' → ∀ (k : Nat) (ts : S), rest[k]? = some ts →
        ∀ rn ∈ replicas, ∃ e, env.getN (splitTenant env tenantHTTP ts).1
          (splitTenant env tenantHTTP ts).2 rn = .ok e
  | [], _, _, _, _, k, ts, hk => by simp at hk
  | ts₀ :: rest, j, w, w', h, k, ts, hk => by
    unfold distributeLoop at h
    dsimp only at h
    cases hrep : replicasLoop env (splitTenant env tenantHTTP ts₀).1 j
        (splitTenant env tenantHTTP ts₀).2 replicas w with
    | error err =>
      rw [hrep] at h
      cases h
    | ok w₁ =>
      rw [hrep] at h
      cases k with
      | zero =>
        obtain rfl : ts₀ = ts := by simpa using hk
        exact replicasLoop_getN hrep
      | succ k => exact distributeLoop_getN h k ts (by simpa using hk)

/-- `distributeTimeseriesToReplicas` gathers one write per destination and tenant, local
where the endpoint has this node's address, and gives each series, once per replica number,
to the endpoint the hashring names for it. -/
theorem distribute_ok {tenantHTTP : String} {replicas : List Nat} {timeseries : List S}
    {lw rw : List (TrackedSeries E S)}
    (h : distributeTimeseriesToReplicas env tenantHTTP replicas timeseries = .ok (lw, rw)) :
    Gathered env lw rw ∧
      ∀ f i, tally (trackedWeight f) (lw ++ rw) i =
        seriesWeight env tenantHTTP replicas f timeseries i := by
  obtain ⟨hg, htally⟩ :=
    distributeLoop_ok tenantHTTP replicas timeseries 0 [] [] lw rw (Gathered.nil env) h
  exact ⟨hg, fun f i => by simpa using htally f i⟩

/-- A write of the distribution carries each series at most once. -/
theorem count_le_one_of_distribute {tenantHTTP : String} {replicas : List Nat}
    {timeseries : List S} {lw rw : List (TrackedSeries E S)}
    (h : distributeTimeseriesToReplicas env tenantHTTP replicas timeseries = .ok (lw, rw))
    (hreplicas : replicas.Nodup) {t : TrackedSeries E S} (ht : t ∈ lw ++ rw) (i : Nat) :
    t.seriesIDs.count i ≤ 1 := by
  have hw : trackedWeight (fun er _ => if er.replica = t.er.replica then 1 else 0) t i ≤
      tally (trackedWeight fun er _ => if er.replica = t.er.replica then 1 else 0) (lw ++ rw) i :=
    List.single_le_sum (fun _ _ => Nat.zero_le _) _ (List.mem_map_of_mem ht)
  rw [(distribute_ok h).2] at hw
  have := seriesWeight_replica_le env tenantHTTP replicas timeseries t.er.replica i
  have := List.nodup_iff_count_le_one.mp hreplicas t.er.replica
  simp only [trackedWeight, if_true, one_mul] at hw
  omega

/-- When the hashring names an endpoint for every series and replica number,
`distributeTimeseriesToReplicas` returns its writes: one per destination and tenant, local
where the endpoint has this node's address, together carrying each series once to the endpoint
named for each replica number. -/
theorem distributeTimeseriesToReplicas_places (env : FanoutEnv E S) (tenantHTTP : String)
    (replicas : List Nat) (timeseries : List S)
    (hget : ∀ tenant ts rn, ∃ e, env.getN tenant ts rn = .ok e) :
    ∃ lw rw, distributeTimeseriesToReplicas env tenantHTTP replicas timeseries = .ok (lw, rw) ∧
      Gathered env lw rw ∧
      ∀ f i, tally (trackedWeight f) (lw ++ rw) i =
        seriesWeight env tenantHTTP replicas f timeseries i := by
  obtain ⟨⟨lw, rw⟩, h⟩ := distributeLoop_isOk hget timeseries 0 ([], [])
  exact ⟨lw, rw, h, distribute_ok h⟩

end Spec

/-! ## Counting the successes -/

/-- The series a response counts a success for. -/
def successIds (r : WriteResponse E) : List Nat := if r.err = none then r.seriesIDs else []

/-- The successes a response gives a series. -/
def successWeight (r : WriteResponse E) (i : Nat) : Nat := (successIds r).count i

/-- The successes counted after the responses `P`. -/
def countSuccesses (successes : List Nat) (P : List (WriteResponse E)) : List Nat :=
  P.foldl (fun c r => bump c (successIds r)) successes

def Arrival.response? : Arrival E → Option (WriteResponse E)
  | .response r => some r
  | .ctxDone _ => none

theorem successWeight_pos_iff (r : WriteResponse E) (i : Nat) :
    0 < successWeight r i ↔ r.err = none ∧ i ∈ r.seriesIDs := by
  unfold successWeight successIds
  split_ifs with h <;> simp [h, List.count_pos_iff]

theorem successWeight_respond_le (t : TrackedSeries E S) (err : Option String) (i : Nat) :
    successWeight (respond t err) i ≤ t.seriesIDs.count i := by
  unfold successWeight successIds respond
  split_ifs <;> simp

theorem filterMap_response?_map (P : List (WriteResponse E)) :
    (P.map Arrival.response).filterMap Arrival.response? = P := by
  simp [List.filterMap_map, Function.comp_def, Arrival.response?]

theorem quorumReached_iff (successes : List Nat) (q : Nat) :
    quorumReached successes q = true ↔ ∀ x ∈ successes, q ≤ x := by
  simp [quorumReached]

/-- From no success, the quorum is reached when every series has `q` successes. -/
theorem quorumReached_countSuccesses (n q : Nat) (P : List (WriteResponse E)) :
    quorumReached (countSuccesses (List.replicate n 0) P) q = true ↔
      ∀ i < n, q ≤ tally successWeight P i := by
  have hget := fun i => getElem?_foldl_bump successWeight successIds (fun _ _ => rfl) P
    (List.replicate n 0) i
  rw [quorumReached_iff]
  constructor
  · intro h i hi
    have := hget i
    rw [List.getElem?_replicate, if_pos hi, Option.map_some, zero_add] at this
    exact h _ (List.mem_of_getElem? this)
  · intro h x hx
    obtain ⟨i, hi⟩ := List.mem_iff_getElem?.mp hx
    rw [countSuccesses, hget i, List.getElem?_replicate] at hi
    split_ifs at hi with hin
    · simp only [Option.map_some, Option.some.injEq, zero_add] at hi
      rw [← hi]
      exact h i hin
    · cases hi

/-- When the loop acknowledges, the responses read before hold a quorum. -/
theorem fanoutLoop_ok (quorum : Nat) : ∀ (arrivals : List (Arrival E)) (successes : List Nat)
    (seriesErrs : List (List String)), successes.length = seriesErrs.length →
    fanoutLoop quorum successes seriesErrs arrivals = .ok () →
    ∃ P : List (WriteResponse E), P.map Arrival.response <+: arrivals ∧
      quorumReached (countSuccesses successes P) quorum = true
  | [], successes, seriesErrs, hlen, h => by
    unfold fanoutLoop at h
    split_ifs at h with h0
    refine ⟨[], List.nil_prefix, ?_⟩
    rw [countSuccesses, List.foldl_nil, List.eq_nil_of_length_eq_zero (hlen.trans h0)]
    rfl
  | .ctxDone err :: _, _, _, _, h => by
    unfold fanoutLoop at h
    cases h
  | .response r :: rest, successes, seriesErrs, hlen, h => by
    unfold fanoutLoop at h
    cases herr : r.err with
    | some err =>
      rw [herr] at h
      dsimp only at h
      obtain ⟨P, hP, hq⟩ :=
        fanoutLoop_ok quorum rest successes _ (by rw [length_foldl_modify]; exact hlen) h
      refine ⟨r :: P, List.cons_prefix_cons.mpr ⟨rfl, hP⟩, ?_⟩
      have hids : successIds r = [] := by simp [successIds, herr]
      rwa [countSuccesses, List.foldl_cons, hids, bump_nil]
    | none =>
      rw [herr] at h
      dsimp only at h
      have hids : successIds r = r.seriesIDs := by simp [successIds, herr]
      by_cases hq : quorumReached (bump successes r.seriesIDs) quorum = true
      · refine ⟨[r], List.cons_prefix_cons.mpr ⟨rfl, List.nil_prefix⟩, ?_⟩
        rwa [countSuccesses, List.foldl_cons, List.foldl_nil, hids]
      · rw [if_neg hq] at h
        obtain ⟨P, hP, hq'⟩ :=
          fanoutLoop_ok quorum rest _ seriesErrs (by rw [length_bump]; exact hlen) h
        refine ⟨r :: P, List.cons_prefix_cons.mpr ⟨rfl, hP⟩, ?_⟩
        rwa [countSuccesses, List.foldl_cons, hids]

/-- When the responses bring every series a quorum, and no quorum stood before them, the loop
acknowledges. -/
theorem fanoutLoop_of_quorum (quorum : Nat) : ∀ (P : List (WriteResponse E))
    (successes : List Nat) (seriesErrs : List (List String)),
    successes.length = seriesErrs.length →
    (quorumReached successes quorum = true → successes = []) →
    quorumReached (countSuccesses successes P) quorum = true →
    fanoutLoop quorum successes seriesErrs (P.map Arrival.response) = .ok ()
  | [], successes, seriesErrs, hlen, hnil, hq => by
    have h0 : successes = [] := hnil hq
    have : seriesErrs.length = 0 := by rw [← hlen, h0]; rfl
    simp [fanoutLoop, this]
  | r :: P, successes, seriesErrs, hlen, hnil, hq => by
    rw [List.map_cons]
    unfold fanoutLoop
    cases herr : r.err with
    | some err =>
      dsimp only
      have hids : successIds r = [] := by simp [successIds, herr]
      rw [countSuccesses, List.foldl_cons, hids, bump_nil] at hq
      exact fanoutLoop_of_quorum quorum P successes _ (by rw [length_foldl_modify]; exact hlen)
        hnil hq
    | none =>
      dsimp only
      have hids : successIds r = r.seriesIDs := by simp [successIds, herr]
      by_cases hq' : quorumReached (bump successes r.seriesIDs) quorum = true
      · rw [if_pos hq']
      · rw [if_neg hq']
        rw [countSuccesses, List.foldl_cons, hids] at hq
        exact fanoutLoop_of_quorum quorum P _ seriesErrs (by rw [length_bump]; exact hlen)
          (fun h => absurd h hq') hq

theorem Delivers.responses {writes : List (TrackedSeries E S)} {arrivals : List (Arrival E)}
    (h : Delivers writes arrivals) :
    ∃ sent : List (TrackedSeries E S × Option String), (sent.map Prod.fst).Subperm writes ∧
      arrivals.filterMap Arrival.response? = sent.map fun p => respond p.1 p.2 := by
  obtain ⟨sent, ⟨hperm, rfl⟩ | ⟨hsub, err, rfl⟩⟩ := h
  · exact ⟨sent, hperm.subperm, by simp [List.filterMap_map, Function.comp_def, Arrival.response?]⟩
  · refine ⟨sent, hsub, ?_⟩
    simp [List.filterMap_append, List.filterMap_map, Function.comp_def, Arrival.response?]

theorem writeQuorum_pos (replicationFactor : Nat) : 0 < writeQuorum replicationFactor := by
  unfold writeQuorum
  split_ifs <;> omega

theorem quorumReached_replicate_zero {n q : Nat} (hq : 0 < q)
    (h : quorumReached (List.replicate n 0) q = true) : List.replicate n 0 = [] := by
  cases n with
  | zero => rfl
  | succ n =>
    have := (quorumReached_iff _ _).mp h 0 List.mem_cons_self
    omega

/-- Every replica number that names an endpoint weighs one. -/
theorem sum_destWeight_one {env : FanoutEnv E S} {tenant : String} {ts : S} :
    ∀ {rns : List Nat}, (∀ rn ∈ rns, ∃ e, env.getN tenant ts rn = .ok e) →
      (rns.map (destWeight env (fun _ _ => 1) tenant ts)).sum = rns.length
  | [], _ => rfl
  | rn :: rns, hget => by
    obtain ⟨e, he⟩ := hget rn List.mem_cons_self
    rw [List.map_cons, List.sum_cons, List.length_cons,
      sum_destWeight_one fun rn' hrn' => hget rn' (List.mem_cons_of_mem rn hrn')]
    simp [destWeight, he, Nat.add_comm]

section Fanout

variable [DecidableEq E] {env : FanoutEnv E S} {tenantHTTP : String} {replicas : List Nat}
  {timeseries : List S} {lw rw : List (TrackedSeries E S)}

/-- The responses to some of the writes give a series at most one success per replica
number. -/
theorem tally_replica_le_one
    (hdist : distributeTimeseriesToReplicas env tenantHTTP replicas timeseries = .ok (lw, rw))
    (hreplicas : replicas.Nodup) {sent : List (TrackedSeries E S × Option String)}
    (hsent : (sent.map Prod.fst).Subperm (lw ++ rw)) {P : List (WriteResponse E)}
    (hP : P.Sublist (sent.map fun p => respond p.1 p.2)) (rn i : Nat) :
    tally successWeight (P.filter (·.er.replica = rn)) i ≤ 1 := by
  let fR : EndpointReplica E → String → Nat := fun er _ => if er.replica = rn then 1 else 0
  calc tally successWeight (P.filter (·.er.replica = rn)) i
      = tally (fun r i => if r.er.replica = rn then successWeight r i else 0) P i := by
        rw [tally_filter]
        simp only [decide_eq_true_eq]
    _ ≤ tally (fun r i => if r.er.replica = rn then successWeight r i else 0)
          (sent.map fun p => respond p.1 p.2) i := tally_sublist_le hP
    _ = tally (fun p i => if p.1.er.replica = rn then successWeight (respond p.1 p.2) i else 0)
          sent i := tally_map
    _ ≤ tally (fun p i => trackedWeight fR p.1 i) sent i := tally_le_of_forall fun p _ => by
        simp only [trackedWeight, fR]
        split_ifs
        · simpa using successWeight_respond_le p.1 p.2 i
        · exact Nat.zero_le _
    _ = tally (trackedWeight fR) (sent.map Prod.fst) i := tally_map.symm
    _ ≤ tally (trackedWeight fR) (lw ++ rw) i := tally_subperm_le hsent
    _ = seriesWeight env tenantHTTP replicas fR timeseries i := (distribute_ok hdist).2 fR i
    _ ≤ replicas.count rn := seriesWeight_replica_le env tenantHTTP replicas timeseries rn i
    _ ≤ 1 := List.nodup_iff_count_le_one.mp hreplicas rn

/-- When all the writes have answered, the successes of a series are its successful
writes. -/
theorem tally_respond
    (hdist : distributeTimeseriesToReplicas env tenantHTTP replicas timeseries = .ok (lw, rw))
    (hreplicas : replicas.Nodup) {sent : List (TrackedSeries E S × Option String)}
    (hsent : (sent.map Prod.fst).Subperm (lw ++ rw)) (i : Nat) :
    tally successWeight (sent.map fun p => respond p.1 p.2) i =
      (sent.filter fun p => p.2 = none ∧ i ∈ p.1.seriesIDs).length := by
  have hle : ∀ p ∈ sent, successWeight (respond p.1 p.2) i ≤ 1 := fun p hp =>
    (successWeight_respond_le p.1 p.2 i).trans
      (count_le_one_of_distribute hdist hreplicas (hsent.subset (List.mem_map_of_mem hp)) i)
  rw [tally_map, tally_eq_length_filter hle]
  congr 1
  exact List.filter_congr fun p _ => decide_eq_decide.mpr (successWeight_pos_iff (respond p.1 p.2) i)

/-- When every series is written to every replica number and every write succeeds, each
series counts a success per replica. -/
theorem tally_all_succeed
    (hdist : distributeTimeseriesToReplicas env tenantHTTP replicas timeseries = .ok (lw, rw))
    {sent : List (TrackedSeries E S × Option String)} (hsent : (sent.map Prod.fst).Perm (lw ++ rw))
    (hok : ∀ p ∈ sent, p.2 = none) {i : Nat} (hi : i < timeseries.length) :
    tally successWeight (sent.map fun p => respond p.1 p.2) i = replicas.length := by
  have hget := distributeLoop_getN hdist i timeseries[i] (List.getElem?_eq_getElem hi)
  calc tally successWeight (sent.map fun p => respond p.1 p.2) i
      = tally (fun p i => trackedWeight (fun _ _ => 1) p.1 i) sent i := by
        rw [tally_map]
        refine tally_congr fun p hp => ?_
        simp [successWeight, successIds, respond, trackedWeight, hok p hp]
    _ = tally (trackedWeight fun _ _ => 1) (lw ++ rw) i := tally_map.symm.trans (tally_perm hsent)
    _ = seriesWeight env tenantHTTP replicas (fun _ _ => 1) timeseries i :=
        (distribute_ok hdist).2 _ i
    _ = replicas.length := by
        unfold seriesWeight
        rw [List.getElem?_eq_getElem hi]
        exact sum_destWeight_one hget

end Fanout

theorem quorum_le_length_writeReplicas (replicated : Bool) (n : Nat) {replicationFactor : Nat}
    (hrf : 0 < replicationFactor) :
    (if replicated then 1 else writeQuorum replicationFactor) ≤
      (writeReplicas replicated n replicationFactor).length := by
  cases replicated with
  | true => exact Nat.le_refl 1
  | false =>
    simp only [writeReplicas, writeQuorum, Bool.false_eq_true, if_false, List.length_range]
    split_ifs <;> omega

/-! ## The fan-out, over every order of arrival -/

/-- A write is acknowledged only at quorum: whatever order the responses arrive in and
whichever writes fail, when `fanoutForward` returns no error, the responses it read give each
series of the request successes from a quorum of replicas, all distinct. -/
theorem fanoutForward_quorum [DecidableEq E] (env : FanoutEnv E S) (tenant : String)
    (replicas : List Nat) (alreadyReplicated : Bool) (timeseries : List S)
    (arrivals : List (Arrival E)) {localWrites remoteWrites : List (TrackedSeries E S)}
    (hdist : distributeTimeseriesToReplicas env tenant replicas timeseries =
      .ok (localWrites, remoteWrites))
    (hreplicas : replicas.Nodup) (hdel : Delivers (localWrites ++ remoteWrites) arrivals)
    (h : fanoutForward env tenant replicas alreadyReplicated timeseries arrivals = .ok ()) :
    ∃ P : List (WriteResponse E), P.map Arrival.response <+: arrivals ∧
      ∀ i < timeseries.length,
        ((P.filter fun r => r.err = none ∧ i ∈ r.seriesIDs).map (·.er.replica)).Nodup ∧
        (if alreadyReplicated then 1 else writeQuorum env.replicationFactor) ≤
          (P.filter fun r => r.err = none ∧ i ∈ r.seriesIDs).length := by
  rw [fanoutForward, hdist] at h
  dsimp only at h
  obtain ⟨P, hP, hq⟩ := fanoutLoop_ok _ arrivals _ _ (by simp) h
  rw [quorumReached_countSuccesses] at hq
  obtain ⟨sent, hsent, hresp⟩ := hdel.responses
  have hsub : P.Sublist (sent.map fun p => respond p.1 p.2) := by
    have := hP.sublist.filterMap Arrival.response?
    rwa [filterMap_response?_map, hresp] at this
  refine ⟨P, hP, fun i hi => ?_⟩
  -- each replica number gives the series one success at most
  obtain ⟨hnodup, hlen⟩ := nodup_sources (w := successWeight) (k := i) (·.er.replica)
    fun rn => tally_replica_le_one hdist hreplicas hsent hsub rn i
  have hfilter : P.filter (0 < successWeight · i) =
      P.filter fun r => r.err = none ∧ i ∈ r.seriesIDs :=
    List.filter_congr fun r _ => decide_eq_decide.mpr (successWeight_pos_iff r i)
  rw [hfilter] at hnodup hlen
  rw [List.length_map] at hlen
  exact ⟨hnodup, hlen ▸ hq i hi⟩

/-- Three endpoints, replica `rn` on endpoint `rn`, this node the first. -/
def threeNodes : FanoutEnv Nat Nat where
  splitTenantLabelName := ""
  labelsGet _ _ := ""
  labelsDel ts _ := ts
  getN _ _ rn := .ok rn
  hasAddress e := e = 0
  replicationFactor := 3

/-- The writes of two series to the three endpoints: the third endpoint's fails, first. -/
def oneDownSent : List (TrackedSeries Nat Nat × Option String) :=
  [(⟨⟨2, 2⟩, "t", [0, 1], [7, 8]⟩, some "unavailable"), (⟨⟨0, 0⟩, "t", [0, 1], [7, 8]⟩, none),
    (⟨⟨1, 1⟩, "t", [0, 1], [7, 8]⟩, none)]

theorem distributeTimeseriesToReplicas_places_three_nodes :
    ∃ lw rw, distributeTimeseriesToReplicas threeNodes "t" [0, 1, 2] [7, 8] = .ok (lw, rw) ∧
      Gathered threeNodes lw rw ∧
      ∀ f i, tally (trackedWeight f) (lw ++ rw) i =
        seriesWeight threeNodes "t" [0, 1, 2] f [7, 8] i :=
  distributeTimeseriesToReplicas_places threeNodes "t" [0, 1, 2] [7, 8] fun _ _ rn => ⟨rn, rfl⟩

theorem fanoutForward_quorum_one_down :
    ∃ P : List (WriteResponse Nat),
      P.map Arrival.response <+: oneDownSent.map (fun p => .response (respond p.1 p.2)) ∧
      ∀ i < [7, 8].length,
        ((P.filter fun r => r.err = none ∧ i ∈ r.seriesIDs).map (·.er.replica)).Nodup ∧
        (if false then 1 else writeQuorum threeNodes.replicationFactor) ≤
          (P.filter fun r => r.err = none ∧ i ∈ r.seriesIDs).length :=
  fanoutForward_quorum threeNodes "t" [0, 1, 2] false [7, 8] _ rfl (by decide)
    ⟨oneDownSent, .inl ⟨by decide, rfl⟩⟩ rfl

/-- When every response arrives, whatever their order, the write is acknowledged exactly when
each series has successful writes to a quorum of replicas. -/
theorem fanoutForward_complete [DecidableEq E] (env : FanoutEnv E S) (tenant : String)
    (replicas : List Nat) (alreadyReplicated : Bool) (timeseries : List S)
    {localWrites remoteWrites : List (TrackedSeries E S)}
    (hdist : distributeTimeseriesToReplicas env tenant replicas timeseries =
      .ok (localWrites, remoteWrites))
    (hreplicas : replicas.Nodup) (sent : List (TrackedSeries E S × Option String))
    (hsent : (sent.map Prod.fst).Perm (localWrites ++ remoteWrites)) :
    fanoutForward env tenant replicas alreadyReplicated timeseries
        (sent.map fun p => .response (respond p.1 p.2)) = .ok () ↔
      ∀ i < timeseries.length,
        (if alreadyReplicated then 1 else writeQuorum env.replicationFactor) ≤
          (sent.filter fun p => p.2 = none ∧ i ∈ p.1.seriesIDs).length := by
  have harr : (sent.map fun p => Arrival.response (respond p.1 p.2)) =
      (sent.map fun p => respond p.1 p.2).map Arrival.response := by
    rw [List.map_map]
    rfl
  have hq0 : 0 < (if alreadyReplicated then 1 else writeQuorum env.replicationFactor) := by
    split_ifs
    · exact Nat.one_pos
    · exact writeQuorum_pos _
  rw [fanoutForward, hdist, harr]
  dsimp only
  constructor
  · intro h i hi
    obtain ⟨P, hP, hq⟩ := fanoutLoop_ok _ _ _ _ (by simp) h
    have hsub : P.Sublist (sent.map fun p => respond p.1 p.2) := by
      have := hP.sublist.filterMap Arrival.response?
      rwa [filterMap_response?_map, filterMap_response?_map] at this
    rw [← tally_respond hdist hreplicas hsent.subperm i]
    exact ((quorumReached_countSuccesses _ _ _).mp hq i hi).trans (tally_sublist_le hsub)
  · intro h
    refine fanoutLoop_of_quorum _ _ _ _ (by simp) (quorumReached_replicate_zero hq0) ?_
    rw [quorumReached_countSuccesses]
    intro i hi
    rw [tally_respond hdist hreplicas hsent.subperm i]
    exact h i hi

theorem fanoutForward_complete_one_down :
    fanoutForward threeNodes "t" [0, 1, 2] false [7, 8]
        (oneDownSent.map fun p => .response (respond p.1 p.2)) = .ok () ↔
      ∀ i < [7, 8].length,
        (if false then 1 else writeQuorum threeNodes.replicationFactor) ≤
          (oneDownSent.filter fun p => p.2 = none ∧ i ∈ p.1.seriesIDs).length :=
  fanoutForward_complete threeNodes "t" [0, 1, 2] false [7, 8] rfl (by decide) oneDownSent
    (by decide)

/-- A request written to all its replica numbers, every write succeeding, is acknowledged,
whatever order the responses arrive in. -/
theorem fanoutForward_all_succeed [DecidableEq E] (env : FanoutEnv E S) (tenant : String)
    (replicated : Bool) (n : Nat) (timeseries : List S)
    {localWrites remoteWrites : List (TrackedSeries E S)}
    (hdist : distributeTimeseriesToReplicas env tenant
      (writeReplicas replicated n env.replicationFactor) timeseries =
        .ok (localWrites, remoteWrites))
    (hrf : 0 < env.replicationFactor) (sent : List (TrackedSeries E S × Option String))
    (hsent : (sent.map Prod.fst).Perm (localWrites ++ remoteWrites))
    (hok : ∀ p ∈ sent, p.2 = none) :
    fanoutForward env tenant (writeReplicas replicated n env.replicationFactor) replicated
      timeseries (sent.map fun p => .response (respond p.1 p.2)) = .ok () := by
  have harr : (sent.map fun p => Arrival.response (respond p.1 p.2)) =
      (sent.map fun p => respond p.1 p.2).map Arrival.response := by
    rw [List.map_map]
    rfl
  have hq0 : 0 < (if replicated then 1 else writeQuorum env.replicationFactor) := by
    split_ifs
    · exact Nat.one_pos
    · exact writeQuorum_pos _
  rw [fanoutForward, hdist, harr]
  dsimp only
  refine fanoutLoop_of_quorum _ _ _ _ (by simp) (quorumReached_replicate_zero hq0) ?_
  rw [quorumReached_countSuccesses]
  intro i hi
  rw [tally_all_succeed hdist hsent hok hi]
  exact quorum_le_length_writeReplicas replicated n hrf

theorem fanoutForward_all_succeed_three_nodes :
    fanoutForward threeNodes "t" (writeReplicas false 0 threeNodes.replicationFactor) false [7, 8]
      ((oneDownSent.map fun p => (p.1, none)).map fun p => .response (respond p.1 p.2)) =
        .ok () :=
  fanoutForward_all_succeed threeNodes "t" false 0 [7, 8] rfl (by decide) _ (by decide)
    fun p hp => by
      obtain ⟨q, -, rfl⟩ := List.mem_map.mp hp
      rfl

end Thanos.Receive
