import DreamboatRpc.Namesvr.History

/-!
# Discovery

`/discover` goes through the registry and picks, of the servers that list a service, the
first one of least load. It does not look at their status: a server that was marked offline
stays in the registry for another period, with the load it last reported, and is still found.
A server whose load adds up to infinity is never found, and if two usages cannot be added,
nothing is answered.

## Main definitions

* `Keyed` — every server is in the registry under its own address
* `PicksProvider` — the answer is a running server of least load, if one runs at all
* `OnlineFirst` — the condition on the registry

## Main results

* `keyed` — the registries of all nodes are keyed, always
* `discover_cases` — what `/discover` finds
* `discover_picks_iff` — when it finds a running server of least load
-/

namespace DreamboatRpc.Namesvr

open CS Raft

variable {n : ℕ} {callee : String} {servers servers' : Registry}

/-- The usages of a server can be added. -/
def Server.Adds (svr : Server) : Prop := (svr.cpuUsage.add svr.memoryUsage).isOk = true

/-- The load of a server, as `discover_endpoint` adds it up, if it can. -/
def Server.totalLoad (svr : Server) : Extended :=
  (svr.cpuUsage.add svr.memoryUsage).toOption.getD ⊤

/-- The server is online and lists the service. -/
def Server.Provides (svr : Server) (callee : String) : Prop :=
  svr.status = .online ∧ callee ∈ svr.services

/-- Every server is in the registry under its own address. -/
def Keyed (servers : Registry) : Prop :=
  ∀ e ∈ servers.entries, (⟨e.2.ip, e.2.port⟩ : ServerId) = e.1

/-- One address is found exactly if a server provides the service, and it is that of one of
least load among those that do; otherwise none is found. -/
structure PicksProvider (callee : String) (servers : Registry) (found : List (String × ℤ)) :
    Prop where
  one : (∃ address, found = [address]) ↔ ∃ e ∈ servers.entries, e.2.Provides callee
  provider : ∀ address, found = [address] → ∃ e ∈ servers.entries, e.2.Provides callee ∧
    (e.2.ip, e.2.port) = address ∧
    ∀ other ∈ servers.entries, other.2.Provides callee → e.2.totalLoad ≤ other.2.totalLoad
  none : (¬ ∃ e ∈ servers.entries, e.2.Provides callee) → found = []

/-- The usages of every server that lists the service can be added; if one of them provides it, one
that does has a finite load; and every one that is offline has an infinite load, or a greater load
than one that provides the service, or the same load and a later place in the registry. -/
structure OnlineFirst (callee : String) (servers : Registry) : Prop where
  adds : ∀ e ∈ servers.entries, callee ∈ e.2.services → e.2.Adds
  finite : (∃ e ∈ servers.entries, e.2.Provides callee) →
    ∃ e ∈ servers.entries, e.2.Provides callee ∧ e.2.totalLoad < ⊤
  before : ∀ (j : ℕ) (e : ServerId × Server), servers.entries[j]? = some e →
    e.2.status = .offline → callee ∈ e.2.services → e.2.totalLoad < ⊤ →
    ∃ (i : ℕ) (other : ServerId × Server), servers.entries[i]? = some other ∧
      other.2.Provides callee ∧
      (other.2.totalLoad < e.2.totalLoad ∨ (other.2.totalLoad = e.2.totalLoad ∧ i < j))

/-! ## Addresses -/

section Keyed

variable {ip : String} {port : ℤ} {now : ℚ}

theorem keyed_empty : Keyed ∅ := fun _ he => absurd he List.not_mem_nil

theorem Keyed.set (h : Keyed servers) {svrId : ServerId} {svr : Server}
    (hsvr : (⟨svr.ip, svr.port⟩ : ServerId) = svrId) : Keyed (servers.set svrId svr) := by
  intro e he
  rcases Dict.mem_setEntry he with rfl | he
  · exact hsvr
  · exact h e he

theorem Keyed.get? (h : Keyed servers) {svrId : ServerId} {svr : Server}
    (hsvr : servers.get? svrId = some svr) : (⟨svr.ip, svr.port⟩ : ServerId) = svrId :=
  h _ (Dict.mem_entries_of_get? hsvr)

theorem Keyed.register (h : Keyed servers) {serviceName : String}
    (hok : register ip port serviceName now servers = .ok servers') : Keyed servers' := by
  rw [register_eq_ok hok]
  refine h.set ?_
  cases hsvr : servers.get? ⟨ip, port⟩ with
  | none => rfl
  | some svr =>
    have hkey := h.get? hsvr
    exact hkey

theorem Keyed.heartbeat (h : Keyed servers) {cpuUsage memoryUsage : Option Load}
    (hok : heartbeat ip port cpuUsage memoryUsage now servers = .ok servers') :
    Keyed servers' := by
  obtain ⟨svr, hsvr, rfl⟩ := heartbeat_eq_ok hok
  have hkey := h.get? hsvr
  exact h.set hkey

theorem Keyed.monitorServer (h : Keyed servers) (now : ℚ) (svrId : ServerId) :
    Keyed (monitorServer now servers svrId) := by
  unfold Namesvr.monitorServer
  split
  · exact h
  · rename_i svr hsvr
    have hkey := h.get? hsvr
    split
    · split
      · exact h.set hkey
      · exact h
    · split
      · exact fun e he => h e (List.mem_of_mem_filter he)
      · exact h

theorem Keyed.monitorClients (h : Keyed servers) (now : ℚ) :
    Keyed (monitorClients now servers) := by
  unfold Namesvr.monitorClients
  generalize servers.keys = l
  induction l generalizing servers with
  | nil => exact h
  | cons svrId l ih => exact ih (h.monitorServer now svrId)

/-- In every state of the name server all registries are keyed, wherever they are. -/
theorem keyed {s : NameServer n} (h : (nameServerSystem n).Reachable unguarded s) :
    s.cluster.Holds fun e => Keyed e.entry.registry := by
  exact holds_of_reachable keyed_empty (fun hkeyed hok => hkeyed.register hok)
    (fun hkeyed hok => hkeyed.heartbeat hok) (fun now hkeyed => hkeyed.monitorClients now) h

end Keyed

/-! ## The selection -/

/-- The server at position `i` is the first one of least load among those that list the
service. -/
structure FirstLeast (callee : String) (l : List Server) (i : ℕ) (svr : Server) : Prop where
  place : l[i]? = some svr
  lists : callee ∈ svr.services
  least : ∀ other ∈ l, callee ∈ other.services → svr.totalLoad ≤ other.totalLoad
  first : ∀ j other, j < i → l[j]? = some other → callee ∈ other.services →
    svr.totalLoad < other.totalLoad

section Selection

variable {l : List Server} {i : ℕ} {svr x : Server}

/-- A server that does not list the service, or has no lower load, changes nothing. -/
theorem FirstLeast.append (h : FirstLeast callee l i svr)
    (hx : callee ∈ x.services → svr.totalLoad ≤ x.totalLoad) :
    FirstLeast callee (l ++ [x]) i svr := by
  have hi : i < l.length := (List.getElem?_eq_some_iff.mp h.place).1
  refine ⟨by rw [List.getElem?_append_left hi, h.place], h.lists, fun other hother hlists => ?_,
    fun j other hj hother hlists => ?_⟩
  · rcases List.mem_append.mp hother with hmem | hmem
    · exact h.least other hmem hlists
    · rw [List.mem_singleton.mp hmem] at hlists ⊢
      exact hx hlists
  · rw [List.getElem?_append_left (hj.trans hi)] at hother
    exact h.first j other hj hother hlists

/-- A server that lists the service and has a lower load than all before takes their place. -/
theorem firstLeast_last (hx : callee ∈ x.services)
    (hless : ∀ other ∈ l, callee ∈ other.services → x.totalLoad < other.totalLoad) :
    FirstLeast callee (l ++ [x]) l.length x := by
  refine ⟨List.getElem?_concat_length, hx, fun other hother hlists => ?_,
    fun j other hj hother hlists => ?_⟩
  · rcases List.mem_append.mp hother with hmem | hmem
    · exact (hless other hmem hlists).le
    · rw [List.mem_singleton.mp hmem]
  · rw [List.getElem?_append_left hj] at hother
    exact hless other (List.mem_of_getElem? hother) hlists

/-- One round of the loop with a server that lists the service. -/
theorem betterServer_of_mem (best : Option (Server × Extended)) (hx : callee ∈ x.services)
    (hadds : x.Adds) : betterServer callee best x =
      .ok (if x.totalLoad < best.elim ⊤ Prod.snd then some (x, x.totalLoad) else best) := by
  unfold Server.Adds at hadds
  unfold betterServer Server.totalLoad
  rw [if_pos hx]
  cases hadd : x.cpuUsage.add x.memoryUsage with
  | error message => simp [hadd, Except.isOk, Except.toBool] at hadds
  | ok totalLoad => rfl

theorem betterServer_raises (best : Option (Server × Extended)) (hx : callee ∈ x.services)
    (hadds : ¬ x.Adds) : ∃ message, betterServer callee best x = .error message := by
  unfold Server.Adds at hadds
  unfold betterServer
  rw [if_pos hx]
  cases hadd : x.cpuUsage.add x.memoryUsage with
  | error message => exact ⟨message, rfl⟩
  | ok totalLoad => simp [hadd, Except.isOk, Except.toBool] at hadds

/-- What the loop has found when it has come through: no server, if none that lists the service
has a finite load, and else the first of least load. -/
def LoopFinds (callee : String) (l : List Server) (best : Option (Server × Extended)) : Prop :=
  (best = none ∧ ∀ svr ∈ l, callee ∈ svr.services → svr.totalLoad = ⊤) ∨
    ∃ i svr, best = some (svr, svr.totalLoad) ∧ svr.totalLoad < ⊤ ∧ FirstLeast callee l i svr

/-- One more round. -/
theorem LoopFinds.append {best : Option (Server × Extended)} (h : LoopFinds callee l best)
    (hx : callee ∈ x.services) : LoopFinds callee (l ++ [x])
      (if x.totalLoad < best.elim ⊤ Prod.snd then some (x, x.totalLoad) else best) := by
  obtain ⟨rfl, hall⟩ | ⟨i, svr, rfl, hfinite, hfirst⟩ := h
  · by_cases hless : x.totalLoad < ⊤
    · rw [Option.elim_none, if_pos hless]
      refine .inr ⟨_, x, rfl, hless, firstLeast_last hx fun other hmem hlists => ?_⟩
      rw [hall other hmem hlists]
      exact hless
    · rw [Option.elim_none, if_neg hless]
      refine .inl ⟨rfl, fun svr hsvr hlists => ?_⟩
      rcases List.mem_append.mp hsvr with hmem | hmem
      · exact hall svr hmem hlists
      · rw [List.mem_singleton.mp hmem]
        exact not_lt_top_iff.mp hless
  · rw [Option.elim_some]
    by_cases hless : x.totalLoad < svr.totalLoad
    · rw [if_pos hless]
      exact .inr ⟨_, x, rfl, hless.trans hfinite, firstLeast_last hx fun other hmem hlists =>
        hless.trans_le (hfirst.least other hmem hlists)⟩
    · rw [if_neg hless]
      exact .inr ⟨i, svr, rfl, hfinite, hfirst.append fun _ => not_lt.mp hless⟩

/-- The loop comes through exactly if all usages it meets can be added. -/
theorem foldlM_betterServer_cases (callee : String) (l : List Server) :
    (∃ message, l.foldlM (betterServer callee) none = .error message ∧
      ∃ svr ∈ l, callee ∈ svr.services ∧ ¬ svr.Adds) ∨
    ∃ best, l.foldlM (betterServer callee) none = .ok best ∧
      (∀ svr ∈ l, callee ∈ svr.services → svr.Adds) ∧ LoopFinds callee l best := by
  induction l using List.reverseRecOn with
  | nil => exact .inr ⟨none, rfl, by simp, .inl ⟨rfl, by simp⟩⟩
  | append_singleton l x ih =>
    rw [List.foldlM_append]
    obtain ⟨message, herror, svr, hsvr, hlists⟩ | ⟨best, hok, hadds, hfinds⟩ := ih
    · rw [herror]
      exact .inl ⟨message, rfl, svr, List.mem_append_left _ hsvr, hlists⟩
    have hlast : (Except.ok best >>= fun best => [x].foldlM (betterServer callee) best) =
        betterServer callee best x := by
      show (betterServer callee best x >>= fun best => pure best) = _
      rw [bind_pure]
    rw [hok, hlast]
    by_cases hx : callee ∈ x.services
    swap
    · -- a server that does not list it is passed over
      have hskip : betterServer callee best x = .ok best := if_neg hx
      rw [hskip]
      refine .inr ⟨best, rfl, fun svr hsvr hlists => ?_, ?_⟩
      · rcases List.mem_append.mp hsvr with hmem | hmem
        · exact hadds svr hmem hlists
        · rw [List.mem_singleton.mp hmem] at hlists
          exact absurd hlists hx
      · obtain ⟨hnone, hall⟩ | ⟨i, svr, hsome, hfinite, hfirst⟩ := hfinds
        · refine .inl ⟨hnone, fun svr hsvr hlists => ?_⟩
          rcases List.mem_append.mp hsvr with hmem | hmem
          · exact hall svr hmem hlists
          · rw [List.mem_singleton.mp hmem] at hlists
            exact absurd hlists hx
        · exact .inr ⟨i, svr, hsome, hfinite, hfirst.append fun hlists => absurd hlists hx⟩
    -- a server that lists it is compared, unless its usages cannot be added
    by_cases hadd : x.Adds
    · rw [betterServer_of_mem best hx hadd]
      refine .inr ⟨_, rfl, fun svr hsvr hlists => ?_, hfinds.append hx⟩
      rcases List.mem_append.mp hsvr with hmem | hmem
      · exact hadds svr hmem hlists
      · rwa [List.mem_singleton.mp hmem]
    · obtain ⟨message, herror⟩ := betterServer_raises best hx hadd
      rw [herror]
      exact .inl ⟨message, rfl, x, List.mem_append_right _ (List.mem_singleton_self x), hx, hadd⟩

end Selection

/-- `/discover` finds nothing, or the address of the first server of least load, if it answers
at all. -/
theorem discover_cases (callee : String) (servers : Registry) :
    (∃ message, discover (some callee) servers = .error message ∧
      ∃ e ∈ servers.entries, callee ∈ e.2.services ∧ ¬ e.2.Adds) ∨
    ((∀ e ∈ servers.entries, callee ∈ e.2.services → e.2.Adds) ∧
      ((discover (some callee) servers = .ok [] ∧
        ∀ e ∈ servers.entries, callee ∈ e.2.services → e.2.totalLoad = ⊤) ∨
      ∃ i svrId svr, discover (some callee) servers = .ok [(svr.ip, svr.port)] ∧
        servers.entries[i]? = some (svrId, svr) ∧ svr.totalLoad < ⊤ ∧
        FirstLeast callee (servers.entries.map Prod.snd) i svr)) := by
  obtain ⟨message, herror, svr, hsvr, hlists⟩ | ⟨best, hok, hadds, hfinds⟩ :=
    foldlM_betterServer_cases callee (servers.entries.map Prod.snd)
  · obtain ⟨e, he, rfl⟩ := List.mem_map.mp hsvr
    exact .inl ⟨message, by rw [discover, herror]; rfl, e, he, hlists⟩
  refine .inr ⟨fun e he => hadds _ (List.mem_map_of_mem he), ?_⟩
  obtain ⟨rfl, hall⟩ | ⟨i, svr, rfl, hfinite, hfirst⟩ := hfinds
  · exact .inl ⟨by rw [discover, hok]; rfl, fun e he => hall _ (List.mem_map_of_mem he)⟩
  · have hplace := hfirst.place
    rw [List.getElem?_map, Option.map_eq_some_iff] at hplace
    obtain ⟨⟨svrId, svr'⟩, hentry, rfl⟩ := hplace
    exact .inr ⟨i, svrId, svr', by rw [discover, hok]; rfl, hentry, hfinite, hfirst⟩

/-! ## The result -/

/-- Under the condition the first server of least load is online. -/
theorem FirstLeast.online {i : ℕ} {svrId : ServerId} {svr : Server}
    (h : FirstLeast callee (servers.entries.map Prod.snd) i svr) (hfinite : svr.totalLoad < ⊤)
    (hentry : servers.entries[i]? = some (svrId, svr)) (honline : OnlineFirst callee servers) :
    svr.status = .online := by
  cases hstatus : svr.status with
  | online => rfl
  | offline =>
    obtain ⟨j, other, hother, hprovides, hbefore⟩ :=
      honline.before i _ hentry hstatus h.lists hfinite
    have hmem : other.2 ∈ servers.entries.map Prod.snd :=
      List.mem_map_of_mem (List.mem_of_getElem? hother)
    have hplace : (servers.entries.map Prod.snd)[j]? = some other.2 := by
      rw [List.getElem?_map, hother, Option.map_some]
    rcases hbefore with hless | ⟨heq, hj⟩
    · exact absurd (h.least _ hmem hprovides.2) (not_le.mpr hless)
    · -- of equal loads the loop keeps the first, which would be the other one
      exact absurd heq (h.first j _ hj hplace hprovides.2).ne'

/-- If the server that is found provides the service, those that list it and are offline come
after it. -/
theorem FirstLeast.before {i j : ℕ} {svrId : ServerId} {svr : Server} {e : ServerId × Server}
    (h : FirstLeast callee (servers.entries.map Prod.snd) i svr)
    (hentry : servers.entries[i]? = some (svrId, svr)) (honline : svr.status = .online)
    (he : servers.entries[j]? = some e) (hoffline : e.2.status = .offline)
    (hlists : callee ∈ e.2.services) :
    svr.totalLoad < e.2.totalLoad ∨ (svr.totalLoad = e.2.totalLoad ∧ i < j) := by
  have hplace : (servers.entries.map Prod.snd)[j]? = some e.2 := by
    rw [List.getElem?_map, he, Option.map_some]
  rcases (h.least _ (List.mem_of_getElem? hplace) hlists).lt_or_eq with hless | heq
  · exact .inl hless
  · refine .inr ⟨heq, ?_⟩
    by_contra hnot
    rcases (not_lt.mp hnot).lt_or_eq with hj | rfl
    · exact absurd heq (h.first j _ hj hplace hlists).ne
    · rw [hentry, Option.some.injEq] at he
      subst he
      exact absurd (honline.symm.trans hoffline) (by decide)

/-- `/discover` finds a running server of least load, exactly if one runs at all, iff the usages of
the servers that list the service can be added, one that is online has a finite load if one is
online, and every one that is offline comes after one that is online or has an infinite load. -/
theorem discover_picks_iff (hkeyed : Keyed servers) (callee : String) :
    (∃ found, discover (some callee) servers = .ok found ∧ PicksProvider callee servers found) ↔
      OnlineFirst callee servers := by
  obtain ⟨message, herror, e, he, hlists, hraises⟩ | ⟨hadds, ⟨hfound, hall⟩ |
    ⟨i, svrId, svr, hfound, hentry, hfinite, hfirst⟩⟩ := discover_cases callee servers
  · -- there is no answer
    rw [herror]
    exact iff_of_false (by simp) fun h => hraises (h.adds e he hlists)
  · -- no server that lists the service has a finite load
    constructor
    · rintro ⟨found, hfound', hpicks⟩
      obtain rfl := Except.ok.inj (hfound.symm.trans hfound')
      have hnone : ¬ ∃ e ∈ servers.entries, e.2.Provides callee := by
        simpa using mt hpicks.one.mpr
      refine ⟨hadds, fun h => absurd h hnone, fun j e he _ hlists hfinite => ?_⟩
      exact absurd (hall e (List.mem_of_getElem? he) hlists) hfinite.ne
    · intro h
      have hnone : ¬ ∃ e ∈ servers.entries, e.2.Provides callee := by
        intro hsome
        obtain ⟨e, he, hprovides, hfinite⟩ := h.finite hsome
        exact absurd (hall e he hprovides.2) hfinite.ne
      exact ⟨[], hfound, ⟨fun h => by simp at h, fun h => absurd h hnone⟩, by simp, fun _ => rfl⟩
  · have hmem : (svrId, svr) ∈ servers.entries := List.mem_of_getElem? hentry
    constructor
    · rintro ⟨found, hfound', hpicks⟩
      obtain rfl : [(svr.ip, svr.port)] = found := Except.ok.inj (hfound.symm.trans hfound')
      obtain ⟨e, he, hprovides, haddress, -⟩ := hpicks.provider _ rfl
      -- the server at this address is the one the loop has picked
      have hsame : e = (svrId, svr) := by
        refine Dict.entry_unique he hmem ?_
        rw [← hkeyed e he, ← hkeyed _ hmem, ServerId.mk.injEq]
        exact Prod.mk.inj haddress
      subst hsame
      exact ⟨hadds, fun _ => ⟨_, hmem, hprovides, hfinite⟩, fun j other hother hstatus hlists _ =>
        ⟨i, _, hentry, hprovides, hfirst.before hentry hprovides.1 hother hstatus hlists⟩⟩
    · intro honline
      have hprovides : svr.Provides callee :=
        ⟨hfirst.online hfinite hentry honline, hfirst.lists⟩
      refine ⟨_, hfound, ⟨fun _ => ⟨_, hmem, hprovides⟩, fun _ => ⟨_, rfl⟩⟩, ?_,
        fun hnone => absurd ⟨_, hmem, hprovides⟩ hnone⟩
      intro address haddress
      refine ⟨_, hmem, hprovides, List.singleton_inj.mp haddress, fun other hother hother' => ?_⟩
      exact hfirst.least _ (List.mem_map_of_mem hother) hother'.2

/-- What a monitor pass at 31 s leaves of two servers that have registered `Echo`, each at its
time, and have not been heard of since. -/
def twoProviders (first second : ℚ) : Registry :=
  monitorClients 31
    (((∅ : Registry).set ⟨"10.0.0.1", 9000⟩
        { newServer "10.0.0.1" 9000 first with services := ["Echo"] }).set ⟨"10.0.0.2", 9000⟩
      { newServer "10.0.0.2" 9000 second with services := ["Echo"] })

theorem keyed_twoProviders (first second : ℚ) : Keyed (twoProviders first second) := by
  refine Keyed.monitorClients ?_ 31
  refine Keyed.set ?_ rfl
  exact keyed_empty.set rfl

/-- The second of them is offline, and the first one is found. -/
theorem discover_picks_iff_twoProviders : ∃ found,
    discover (some "Echo") (twoProviders 20 0) = .ok found ∧
      PicksProvider "Echo" (twoProviders 20 0) found := by
  refine (discover_picks_iff (keyed_twoProviders 20 0) "Echo").mpr ?_
  have hentries : (twoProviders 20 0).entries =
      [(⟨"10.0.0.1", 9000⟩, { newServer "10.0.0.1" 9000 20 with services := ["Echo"] }),
        (⟨"10.0.0.2", 9000⟩, { newServer "10.0.0.2" 9000 0 with
          services := ["Echo"], status := .offline })] := by decide +kernel
  refine ⟨?_, fun _ => ?_, fun j e he hoffline _ _ => ?_⟩
  · rw [hentries]
    intro e he _
    rcases List.mem_pair.mp he with rfl | rfl <;> rfl
  · rw [hentries]
    exact ⟨_, List.mem_cons_self .., ⟨rfl, List.mem_singleton_self _⟩, by decide +kernel⟩
  rw [hentries] at he ⊢
  obtain _ | _ | j := j
  · obtain rfl := Option.some.inj he
    exact absurd hoffline (by decide)
  · obtain rfl := Option.some.inj he
    exact ⟨0, _, rfl, ⟨rfl, List.mem_singleton_self _⟩, .inr ⟨rfl, Nat.one_pos⟩⟩
  · simp at he

/-- If the first of them is offline, it is found although the second one runs. -/
theorem discover_offline :
    ¬ ∀ (servers : Registry) (callee : String), Keyed servers →
      ∃ found, discover (some callee) servers = .ok found ∧ PicksProvider callee servers found := by
  intro hpicks
  obtain ⟨found, hfound, hprovider⟩ := hpicks (twoProviders 0 20) "Echo" (keyed_twoProviders 0 20)
  have haddress : discover (some "Echo") (twoProviders 0 20) = .ok [("10.0.0.1", 9000)] := by
    decide +kernel
  obtain rfl := Except.ok.inj (haddress.symm.trans hfound)
  obtain ⟨e, he, hprovides, hip, -⟩ := hprovider.provider _ rfl
  have hoffline : ∀ e ∈ (twoProviders 0 20).entries, e.2.ip = "10.0.0.1" →
      e.2.status = .offline := by decide +kernel
  exact absurd (hprovides.1.symm.trans (hoffline e he (Prod.mk.inj hip).1)) (by decide)

end DreamboatRpc.Namesvr
