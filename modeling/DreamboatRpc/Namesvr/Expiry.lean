import DreamboatRpc.Namesvr.SoleWriter

/-!
# How a silent server expires

A server that is heard from is online. What the registry of the leader says of it from then on
depends only on the times of the monitor passes: one pass that comes more than
`MAX_INACTIVITY_TIME` after the server was last heard from takes it offline, and a second one,
more than `MAX_INACTIVITY_TIME + MAX_OFFLINE_TIME` after, removes it. How many servers there are
and what is asked for them in the meantime makes no difference, and no server that is heard from
in time is ever taken offline.

## Main definitions

* `heardFrom` — the time of a request of a server that is answered with success
* `passes` — the times of the monitor passes of a history
* `Late`, `Lost` — a pass finds the server silent for too long, and a second one does again

## Main results

* `silent_server` — the status of a server, since it was last heard from
-/

namespace DreamboatRpc.Namesvr

open CS Raft

variable {n : ℕ}

/-! ## Passes over one server -/

/-- Some pass comes more than `MAX_INACTIVITY_TIME` after `time`. -/
def Late (time : ℚ) (passes : List ℚ) : Prop := ∃ now ∈ passes, now - time > maxInactivityTime

/-- After such a pass another one comes, more than `MAX_OFFLINE_TIME` later still. The latest
pass is the first one in the list. -/
def Lost (time : ℚ) (passes : List ℚ) : Prop :=
  ∃ later now earlier, passes = later ++ now :: earlier ∧
    now - time > maxInactivityTime + maxOfflineTime ∧ Late time earlier

/-- What is left of a server after monitor passes, latest first. -/
def afterPasses (svr : Server) : List ℚ → Option Server
  | [] => some svr
  | now :: earlier => (afterPasses svr earlier).bind (afterPass now)

section Passes

variable {time now : ℚ} {passes : List ℚ}

theorem late_cons :
    Late time (now :: passes) ↔ now - time > maxInactivityTime ∨ Late time passes := by
  simp [Late]

theorem lost_cons : Lost time (now :: passes) ↔
    (now - time > maxInactivityTime + maxOfflineTime ∧ Late time passes) ∨ Lost time passes := by
  constructor
  · rintro ⟨later, now', earlier, heq, hlong, hlate⟩
    cases later with
    | nil =>
      obtain ⟨rfl, rfl⟩ := List.cons.inj heq
      exact .inl ⟨hlong, hlate⟩
    | cons t later =>
      obtain ⟨rfl, rfl⟩ := List.cons.inj heq
      exact .inr ⟨later, now', earlier, rfl, hlong, hlate⟩
  · rintro (⟨hlong, hlate⟩ | ⟨later, now', earlier, rfl, hlong, hlate⟩)
    · exact ⟨[], now, passes, rfl, hlong, hlate⟩
    · exact ⟨now :: later, now', earlier, rfl, hlong, hlate⟩

theorem Lost.late (h : Lost time passes) : Late time passes := by
  obtain ⟨later, now, earlier, rfl, -, now', hmem, hlate⟩ := h
  exact ⟨now', List.mem_append_right _ (List.mem_cons_of_mem _ hmem), hlate⟩

/-- A server that was online is removed, or offline, or as it was. -/
theorem afterPasses_cases {svr : Server} (hstatus : svr.status = .online) (passes : List ℚ) :
    (Lost svr.aliveTimestamp passes ∧ afterPasses svr passes = none) ∨
    (¬ Lost svr.aliveTimestamp passes ∧ Late svr.aliveTimestamp passes ∧
      afterPasses svr passes = some { svr with status := .offline }) ∨
    (¬ Late svr.aliveTimestamp passes ∧ afterPasses svr passes = some svr) := by
  induction passes with
  | nil => exact .inr (.inr ⟨by simp [Late], rfl⟩)
  | cons now earlier ih =>
    rw [lost_cons, late_cons, afterPasses]
    obtain ⟨hlost, hnone⟩ | ⟨hkept, hlate, hoffline⟩ | ⟨hintime, honline⟩ := ih
    · exact .inl ⟨.inr hlost, by rw [hnone]; rfl⟩
    · rw [hoffline, Option.bind_some, afterPass]
      by_cases hlong : now - svr.aliveTimestamp > maxInactivityTime + maxOfflineTime
      · exact .inl ⟨.inl ⟨hlong, hlate⟩, if_pos hlong⟩
      · exact .inr (.inl ⟨by tauto, .inr hlate, if_neg hlong⟩)
    · have hkept : ¬ Lost svr.aliveTimestamp earlier := fun hlost => hintime hlost.late
      rw [honline, Option.bind_some, afterPass, hstatus]
      by_cases hlong : now - svr.aliveTimestamp > maxInactivityTime
      · exact .inr (.inl ⟨by tauto, .inl hlong, if_pos hlong⟩)
      · exact .inr (.inr ⟨by tauto, if_neg hlong⟩)

end Passes

/-! ## A server in a run -/

/-- The node a server makes its request to, the server, and the time of the request. -/
def Action.caller : Action n → Option (Fin n × ServerId × ℚ)
  | .register p ip port _ now | .heartbeat p ip port _ _ now => some (p, ⟨ip, port⟩, now)
  | .raft _ | .monitorClients _ _ => none

/-- The time of a request of a server, if it is not refused. -/
def heardFrom (svrId : ServerId) (x : NameServerStep n) : Option ℚ :=
  match x.event.caller with
  | some (p, caller, now) =>
    if caller = svrId ∧ ((x.source.read p).bind x.event.update).isSome then some now else none
  | none => none

/-- The times of the monitor passes, latest first. -/
def passes (history : List (NameServerStep n)) : List ℚ :=
  history.filterMap fun x =>
    match x.event with
    | .monitorClients _ now => some now
    | .raft _ | .register _ _ _ _ _ | .heartbeat _ _ _ _ _ _ => none

/-- A request that is not refused changes the record of the server that makes it. -/
theorem update_caller {a : Action n} {p : Fin n} {svrId : ServerId} {now : ℚ}
    {servers servers' : Registry} (hcaller : a.caller = some (p, svrId, now))
    (hupdate : a.update servers = some servers') :
    ∃ svr, servers' = servers.set svrId svr ∧ svr.status = .online ∧ svr.aliveTimestamp = now := by
  cases a with
  | register p' ip port serviceName now' =>
    simp only [Action.caller, Option.some.injEq, Prod.mk.injEq] at hcaller
    obtain ⟨rfl, rfl, rfl⟩ := hcaller
    exact ⟨_, register_eq_ok (eq_ok_of_toOption hupdate), rfl, rfl⟩
  | heartbeat p' ip port cpuUsage memoryUsage now' =>
    simp only [Action.caller, Option.some.injEq, Prod.mk.injEq] at hcaller
    obtain ⟨rfl, rfl, rfl⟩ := hcaller
    obtain ⟨svr, -, hservers⟩ := heartbeat_eq_ok (eq_ok_of_toOption hupdate)
    exact ⟨_, hservers, rfl, rfl⟩
  | raft e => simp [Action.caller] at hcaller
  | monitorClients p' now' => simp [Action.caller] at hcaller

/-- Requests go to the leader. -/
theorem caller_of_soleWriter {ℓ p : Fin n} {s : NameServer n} {a : Action n} {svrId : ServerId}
    {now : ℚ} (hguard : soleWriter ℓ s a = true) (hcaller : a.caller = some (p, svrId, now)) :
    p = ℓ := by
  cases a with
  | register p' ip port serviceName now' =>
    simp only [Action.caller, Option.some.injEq, Prod.mk.injEq] at hcaller
    simp only [soleWriter, inCharge, Bool.and_eq_true, beq_iff_eq] at hguard
    exact hcaller.1.symm.trans hguard.1.1
  | heartbeat p' ip port cpuUsage memoryUsage now' =>
    simp only [Action.caller, Option.some.injEq, Prod.mk.injEq] at hcaller
    simp only [soleWriter, inCharge, Bool.and_eq_true, beq_iff_eq] at hguard
    exact hcaller.1.symm.trans hguard.1
  | raft e => simp [Action.caller] at hcaller
  | monitorClients p' now' => simp [Action.caller] at hcaller

section Runs

variable {ℓ : Fin n} {s : NameServer n} {x : NameServerStep n}
  {later earlier : List (NameServerStep n)} {svrId : ServerId} {time : ℚ}

/-- A server that is heard from is online. -/
theorem get?_registryAfter_heard
    (h : (nameServerSystem n).Run (fun s a => soleWriter ℓ s a = true) (x :: earlier) s)
    (hx : heardFrom svrId x = some time) :
    ∃ svr, svr.status = .online ∧ svr.aliveTimestamp = time ∧
      (registryAfter (x :: earlier)).get? svrId = some svr := by
  cases h with
  | step hrun hguard hs =>
    simp only [heardFrom] at hx
    split at hx
    · rename_i p caller now hcaller
      obtain rfl := caller_of_soleWriter hguard hcaller
      rw [read_registryAfter hrun, Option.bind_some, Option.ite_none_right_eq_some] at hx
      obtain ⟨⟨rfl, hsome⟩, hnow⟩ := hx
      obtain ⟨servers', hupdate⟩ := Option.isSome_iff_exists.mp hsome
      obtain ⟨svr, hset, honline, htime⟩ := update_caller hcaller hupdate
      rw [(registryAfter_cons_some hupdate).1, hset]
      exact ⟨svr, honline, htime.trans (Option.some.inj hnow), Dict.get?_set_self⟩
    · simp at hx

/-- A step in which a server is not heard from is a monitor pass, or leaves it as it is. -/
theorem get?_registryAfter_silent
    (h : (nameServerSystem n).Run (fun s a => soleWriter ℓ s a = true) (x :: earlier) s)
    (hx : heardFrom svrId x = none) :
    (passes [x] = [] ∧
      (registryAfter (x :: earlier)).get? svrId = (registryAfter earlier).get? svrId) ∨
    ∃ now, passes [x] = [now] ∧ (registryAfter (x :: earlier)).get? svrId =
      ((registryAfter earlier).get? svrId).bind (afterPass now) := by
  cases h with
  | @step _ s₀ _ a hrun hguard hs =>
    cases hcaller : a.caller with
    | some c =>
      obtain ⟨p, caller, now⟩ := c
      have hnone : passes [(⟨s₀, a, s⟩ : NameServerStep n)] = [] := by
        cases a with
        | monitorClients p' now' => simp [Action.caller] at hcaller
        | _ => rfl
      obtain rfl := caller_of_soleWriter hguard hcaller
      refine .inl ⟨hnone, ?_⟩
      cases hupdate : a.update (registryAfter earlier) with
      | none => rw [(registryAfter_cons_none (x := ⟨s₀, a, s⟩) hupdate).1]
      | some servers' =>
        obtain ⟨svr, hset, -, -⟩ := update_caller hcaller hupdate
        -- it is another server that was heard from
        have hne : svrId ≠ caller := by
          rintro rfl
          simp [heardFrom, hcaller, read_registryAfter hrun, hupdate] at hx
        rw [(registryAfter_cons_some (x := ⟨s₀, a, s⟩) hupdate).1, hset,
          Dict.get?_set_of_ne hne]
    | none =>
      cases a with
      | raft e => exact .inl ⟨rfl, rfl⟩
      | monitorClients p now => exact .inr ⟨now, rfl, get?_monitorClients now _ svrId⟩
      | register p ip port serviceName now => simp [Action.caller] at hcaller
      | heartbeat p ip port cpuUsage memoryUsage now => simp [Action.caller] at hcaller

/-- Since a server was last heard from, only the monitor has changed what is said of it. -/
theorem get?_registryAfter
    (h : (nameServerSystem n).Run (fun s a => soleWriter ℓ s a = true)
      (later ++ x :: earlier) s)
    (hx : heardFrom svrId x = some time) (hsilent : ∀ y ∈ later, heardFrom svrId y = none) :
    ∃ svr, svr.status = .online ∧ svr.aliveTimestamp = time ∧
      (registryAfter (later ++ x :: earlier)).get? svrId = afterPasses svr (passes later) := by
  induction later generalizing s with
  | nil => exact get?_registryAfter_heard h hx
  | cons y later ih =>
    obtain ⟨hy, hbefore⟩ := List.forall_mem_cons.mp hsilent
    have hpasses : passes (y :: later) = passes [y] ++ passes later :=
      List.filterMap_append (l := [y])
    have hlast : (nameServerSystem n).Run (fun s a => soleWriter ℓ s a = true)
        ([y] ++ (later ++ x :: earlier)) s := h
    obtain ⟨s₀, hrun⟩ := hlast.of_append
    obtain ⟨svr, honline, htime, hget⟩ := ih hrun hbefore
    refine ⟨svr, honline, htime, ?_⟩
    rw [hpasses]
    obtain ⟨hnone, hsame⟩ | ⟨now, hpass, hbind⟩ := get?_registryAfter_silent h hy
    · rw [hnone]
      exact hsame.trans hget
    · rw [hpass]
      exact hbind.trans (congrArg (fun svr => svr.bind (afterPass now)) hget)

/-- The process of a server goes on after a heartbeat exactly if the server is registered. -/
theorem heartbeatRound_eq_running_iff {servers : Registry} {cpuUsage memoryUsage : Option Load}
    {now : ℚ} :
    heartbeatRound (reply (heartbeat svrId.ip svrId.port cpuUsage memoryUsage now)
      (some servers)) = .running ↔ servers.get? svrId ≠ none := by
  cases hresult : heartbeat svrId.ip svrId.port cpuUsage memoryUsage now servers with
  | error message =>
    have hnone := (heartbeat_eq_error_iff.mp hresult).1
    simp [reply, hresult, heartbeatRound, sendHeartbeat, Answer.code, hnone]
  | ok servers' =>
    obtain ⟨svr, hsvr, -⟩ := heartbeat_eq_ok hresult
    simp [reply, hresult, heartbeatRound, sendHeartbeat, Answer.code, hsvr]

/-- What the leader says of a server that was last heard from at `time`: it is not registered any
more exactly if two passes of the monitor came too late for it, and it is online exactly if none
did. Its process goes on after its next heartbeat exactly if it is still registered. -/
theorem silent_server
    (h : (nameServerSystem n).Run (fun s a => soleWriter ℓ s a = true)
      (later ++ x :: earlier) s)
    (hx : heardFrom svrId x = some time) (hsilent : ∀ y ∈ later, heardFrom svrId y = none) :
    ∃ servers, s.read ℓ = some servers ∧
      (servers.get? svrId = none ↔ Lost time (passes later)) ∧
      (∀ svr, servers.get? svrId = some svr → svr.aliveTimestamp = time ∧
        (svr.status = .online ↔ ¬ Late time (passes later))) ∧
      ∀ cpuUsage memoryUsage now,
        heartbeatRound (reply (heartbeat svrId.ip svrId.port cpuUsage memoryUsage now)
          (s.read ℓ)) = .running ↔ ¬ Lost time (passes later) := by
  refine ⟨_, read_registryAfter h, ?_⟩
  obtain ⟨svr, honline, rfl, hget⟩ := get?_registryAfter h hx hsilent
  simp only [read_registryAfter h, heartbeatRound_eq_running_iff]
  rw [hget]
  obtain ⟨hlost, hnone⟩ | ⟨hkept, hlate, hoffline⟩ | ⟨hintime, hsame⟩ :=
    afterPasses_cases honline (passes later)
  · simp [hnone, hlost]
  · simp [hoffline, hkept, hlate]
  · have hkept : ¬ Lost svr.aliveTimestamp (passes later) := fun hlost => hintime hlost.late
    simp [hsame, hkept, hintime, honline]

end Runs

/-- The last three actions: a server registers at time `0`, and passes come at `31` and `61`. -/
def forgotten : List (NameServerStep 2) → Bool
  | y :: z :: x :: _ =>
    heardFrom ⟨"a", 1⟩ x == some 0 && heardFrom ⟨"a", 1⟩ y == none &&
      heardFrom ⟨"a", 1⟩ z == none && passes [y, z] == [61, 31]
  | _ => false

theorem silent_server_forgotten :
    ∃ (s : NameServer 2) (servers : Registry), s.read 0 = some servers ∧
      servers.get? ⟨"a", 1⟩ = none := by
  have hreplay : (replay NameServer.exec (soleWriter 0) [] NameServer.init
      (inOffice ++ [.register 0 "a" 1 "s" 0, .monitorClients 0 31, .monitorClients 0 61])).any
      (fun r => forgotten r.1) = true := by
    decide +kernel
  obtain ⟨history, s, hrun, htest⟩ := exists_run_of_replay (fun h _ => forgotten h) hreplay
  match history, hrun, htest with
  | y :: z :: x :: earlier, hrun, htest =>
    simp only [forgotten, Bool.and_eq_true, beq_iff_eq] at htest
    obtain ⟨⟨⟨hx, hy⟩, hz⟩, hpasses⟩ := htest
    have hlast : (nameServerSystem 2).Run (fun s a => soleWriter 0 s a = true)
        ([y, z] ++ x :: earlier) s := hrun
    obtain ⟨servers, hread, hlost, -, -⟩ := silent_server hlast hx (by simp [hy, hz])
    refine ⟨s, servers, hread, hlost.mpr ?_⟩
    rw [hpasses]
    exact ⟨[], 61, [31], rfl, by decide +kernel, 31, List.mem_singleton_self _, by decide +kernel⟩

end DreamboatRpc.Namesvr
