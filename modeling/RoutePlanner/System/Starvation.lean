/-
# Who is served

A session keeps the server's thread from its first message on, and while everything
goes well none of them ends.  So the first client whose status request is complete is
served for as long as it likes, and nobody else is served at all.
-/

import RoutePlanner.System.ServedClients

namespace RoutePlanner.System

open RoutePlanner.Std
open RoutePlanner.Messages
open RoutePlanner.Comms
open RoutePlanner.Server
open RoutePlanner.Client

namespace Clients

variable {π : Type}

/-- What can come after a state, with the clock at a fixed time. -/
def Leads (ctime : UInt64 → Option Str) (ops : PlannerOps π) (now : UInt64) (s s' : Clients π) :
    Prop :=
  ∃ happenings : List Happening,
    Machine.run (exec ctime ops) s (happenings.map fun happening => (now, happening)) = .ok s'

section Leads

variable {ctime : UInt64 → Option Str} {ops : PlannerOps π} {now : UInt64} {s s' s'' : Clients π}

theorem Leads.refl (s : Clients π) : Leads ctime ops now s s := ⟨[], rfl⟩

theorem Leads.step (happening : Happening) (h : s.step ctime ops now happening = .ok s')
    (hrest : Leads ctime ops now s' s'') : Leads ctime ops now s s'' := by
  obtain ⟨happenings, hrun⟩ := hrest
  refine ⟨happening :: happenings, ?_⟩
  rw [List.map_cons, Machine.run_cons, exec, h, Fault.ok_bind, hrun]

theorem Leads.trans (h : Leads ctime ops now s s') (hrest : Leads ctime ops now s' s'') :
    Leads ctime ops now s s'' := by
  obtain ⟨first, hfirst⟩ := h
  obtain ⟨second, hsecond⟩ := hrest
  refine ⟨first ++ second, ?_⟩
  rw [List.map_append, Machine.run_append, hfirst, Fault.ok_bind, hsecond]

/-- The server takes its own steps, and no others. -/
theorem server_of_step {happening : Happening} (h : s.step ctime ops now happening = .ok s') :
    s'.server = s.server ∨
      ∃ event, s.server.step (sendingHandler ctime ops) event = .ok s'.server := by
  cases happening with
  | connects =>
      obtain ⟨peer, -, heq⟩ := Fault.bind_eq_ok.mp h
      obtain rfl := Except.ok.inj heq
      exact Or.inl rfl
  | accepted =>
      rw [Clients.step] at h
      split at h
      · obtain ⟨server, hstep, heq⟩ := Fault.bind_eq_ok.mp h
        obtain rfl := Except.ok.inj heq
        exact Or.inr ⟨_, hstep⟩
      · exact Or.inl (congrArg server (Except.ok.inj h).symm)
  | serverReads i size =>
      rw [Clients.step] at h
      split at h
      · exact Or.inl (congrArg server (Except.ok.inj h).symm)
      · split at h
        · obtain ⟨server, hstep, heq⟩ := Fault.bind_eq_ok.mp h
          obtain rfl := Except.ok.inj heq
          exact Or.inr ⟨_, hstep⟩
        · exact Or.inl (congrArg server (Except.ok.inj h).symm)
  | written i =>
      obtain ⟨server, hstep, heq⟩ := Fault.bind_eq_ok.mp h
      obtain rfl := Except.ok.inj heq
      exact Or.inr ⟨_, hstep⟩
  | clientReads i size user =>
      rw [Clients.step] at h
      split at h
      · exact Or.inl (congrArg server (Except.ok.inj h).symm)
      · split at h
        · exact Or.inl (congrArg server (Except.ok.inj h).symm)
        · split at h
          · exact Or.inl (congrArg server (Except.ok.inj h).symm)
          · obtain ⟨peer, -, heq⟩ := Fault.bind_eq_ok.mp h
            obtain rfl := Except.ok.inj heq
            exact Or.inl rfl

end Leads

namespace Orderly

variable {ctime : UInt64 → Option Str} {locations : LocationNames}
  {steady : SteadyPlanner π locations.names} {s s' : Clients π} {now : UInt64} {i k : Nat}
  {peer : Peer}

/-! ## The thread is kept -/

theorem held_of_step (h : Orderly ctime steady s) (h' : Orderly ctime steady s')
    {happening : Happening} (hstep : s.step ctime steady.ops now happening = .ok s') {j : Nat}
    (hheld : s.server.thread.session = some j) : s'.server.thread.session = some j := by
  rcases server_of_step hstep with hsame | ⟨event, hserver⟩
  · rwa [hsame]
  · have hmoves := TcpServer.moves_of_step h.server.owned.sound hserver
    rcases h.server.owned.held_of_moves hmoves hheld with hheld' | hended
    · exact hheld'
    · exact absurd hended (h'.server.noneEnded j)

/-- Whoever has the thread has it for the rest of the run. -/
theorem held_of_run (h : Orderly ctime steady s) {later : List (UInt64 × Happening)}
    (hdated : ∀ event ∈ later, ctime event.1 ≠ none)
    (hrun : Machine.run (exec ctime steady.ops) s later = .ok s') :
    Orderly ctime steady s' ∧ ∀ j, s.server.thread.session = some j →
      s'.server.thread.session = some j := by
  obtain ⟨s₁, hrun₁, h₁⟩ := @Machine.run_invariant _ _ (exec ctime steady.ops)
    (fun s₁ => Orderly ctime steady s₁ ∧ ∀ j, s.server.thread.session = some j →
      s₁.server.thread.session = some j)
    (fun _ event => ctime event.1 ≠ none)
    (fun s₁ event h₁ hnow => by
      obtain ⟨s₂, hstep, h₂⟩ := h₁.1.step hnow event.2
      exact ⟨s₂, hstep, h₂, fun j hj => h₁.1.held_of_step h₂ hstep (h₁.2 j hj)⟩)
    _ ⟨h, fun _ hj => hj⟩ later fun pre event post _ heq _ _ =>
      hdated event (heq ▸ List.mem_append_right _ List.mem_cons_self)
  obtain rfl := Except.ok.inj (hrun.symm.trans hrun₁)
  exact h₁

/-- While another client is served, a client is in its first phase. -/
theorem zero_of_held (h : Orderly ctime steady s)
    (hk : peer.Follows ctime locations.names s.server i k) {j : Nat}
    (hheld : s.server.thread.session = some j) (hne : j ≠ i) : k = 0 := by
  by_contra hserved
  have hi := (h.server.owned.owner i).mp (hk.served.mpr hserved)
  rw [hheld] at hi
  exact hne (Option.some.inj hi)

/-! ## The thread is used -/

/-- The whole of what is on its way can arrive at once. -/
theorem arrived_all {bytes : List Byte} (h : bytes ≠ []) :
    arrived bytes.length bytes = some ⟨bytes, h⟩ := by
  rw [arrived, dif_pos (by rwa [List.take_length])]
  simp only [List.take_length]

/-- The message of a client whose turn it is arrives, and its reply is sent. -/
theorem leads_reply (hnow : ctime now ≠ none) (hpeer : s.peers[i]? = some peer)
    (hk : peer.Follows ctime locations.names s.server i k) (hodd : k % 2 = 1) :
    ∃ s' peer', Leads ctime steady.ops now s s' ∧ s'.peers[i]? = some peer' ∧
      peer'.handed.length = peer.handed.length + 1 := by
  have hne : peer.toClient ≠ [] := by
    obtain ⟨msg, -, -, hawaits⟩ := hk.message
    rw [Phase.turn_after, if_neg (by omega)] at hawaits
    exact rest_ne_nil_of_pending waitsForAll_waitReady hk.pending hawaits.1
  obtain ⟨peer', hread, hk'⟩ := Peer.onRead_spec hk hnow User.first (arrived_all hne)
  rw [if_pos List.drop_length] at hk'
  refine ⟨{ s with peers := s.peers.set i peer' }, peer',
    .step (.clientReads i peer.toClient.length .first) ?_ (.refl _), ?_, ?_⟩
  · rw [Clients.step]
    simp only [hpeer, arrived_all hne, hread]
    rw [if_neg (by simp [hk.running])]
    rfl
  · rw [List.getElem?_set_self (List.getElem?_eq_some_iff.mp hpeer).1]
  · rw [hk'.handed, hk.handed]
    omega

/-- The request of a client arrives and is answered, and the client reads the answer. -/
theorem leads_answer (h : Orderly ctime steady s) (hnow : ctime now ≠ none)
    (hpeer : s.peers[i]? = some peer) (hk : peer.Follows ctime locations.names s.server i k)
    (heven : k % 2 = 0) {reader : (List Byte → Bool) × List Read}
    (hreader : s.server.reader i = some reader) :
    ∃ s' peer', Leads ctime steady.ops now s s' ∧ s'.peers[i]? = some peer' ∧
      peer'.handed.length = peer.handed.length + 1 := by
  obtain ⟨ready, reads⟩ := reader
  have hne : peer.toServer ≠ [] := by
    obtain ⟨msg, -, -, hawaits⟩ := hk.message
    rw [Phase.turn_after, if_pos heven] at hawaits
    have hbytes := hawaits.1
    rw [TcpServer.readsOf_of_reader h.server.owned hreader] at hbytes
    exact rest_ne_nil_of_pending (TcpServer.waitsForAll_of_reader hreader)
      (h.server.owned.pending_of_reader hreader) hbytes
  obtain ⟨after, hstep, hafter, hk'⟩ := h.serverReads_step hnow hk hreader (arrived_all hne)
  rw [if_pos List.drop_length] at hk'
  have hodd : (k + 1) % 2 = 1 := by omega
  obtain ⟨s', peer', hleads, hpeer', hhanded⟩ := @leads_reply _ _ _ steady ⟨after, _⟩ _ i _ _ hnow
    (List.getElem?_set_self (List.getElem?_eq_some_iff.mp hpeer).1) hk' hodd
  refine ⟨s', peer', .step (.serverReads i peer.toServer.length) ?_ hleads, hpeer',
    hhanded⟩
  rw [Clients.step]
  simp only [hpeer, hreader, arrived_all hne, hstep]
  rfl

/-- A write that is under way completes. -/
theorem leads_waiting (h : Orderly ctime steady s) {bytesSent : Nat}
    (hthread : s.server.thread = .sending i bytesSent) :
    ∃ s', Leads ctime steady.ops now s s' ∧ Orderly ctime steady s' ∧ s'.peers = s.peers ∧
      s'.server.thread = .waiting i [] := by
  obtain ⟨after, hstep, hafter⟩ := @written_step _ _ _ _ _ now h i
  have heq : after = { s.server with thread := .waiting i [] } := by
    rw [TcpServer.step] at hstep
    rw [← Except.ok.inj hstep, TcpServer.onWritten, hthread]
    simp only [if_true, if_pos (h.server.sends _ _ hthread)]
  refine ⟨{ s with server := after }, .step (.written i) ?_ (.refl _), hafter, rfl,
    by rw [heq]⟩
  rw [Clients.step, hstep]
  rfl

/-- While nobody is served, all connections can be accepted. -/
theorem leads_accepted (h : Orderly ctime steady s) (hthread : s.server.thread = .polling)
    {n : Nat} (hn : n ≤ s.peers.length) :
    ∃ s', Leads ctime steady.ops now s s' ∧ Orderly ctime steady s' ∧ s'.peers = s.peers ∧
      s'.server.thread = .polling ∧ n ≤ s'.server.sessions.length := by
  induction n with
  | zero => exact ⟨s, .refl s, h, rfl, hthread, Nat.zero_le _⟩
  | succ n ih =>
      obtain ⟨s₁, hleads, h₁, hpeers, hthread₁, hlength⟩ := ih (Nat.le_of_succ_le hn)
      by_cases hmore : s₁.server.sessions.length < s₁.peers.length
      · obtain ⟨after, hstep, hafter⟩ := @accepted_step _ _ _ _ _ now h₁ hmore
        have heq : after = { s₁.server with
            acceptPending := true, sessions := s₁.server.sessions ++ [.matching []] } := by
          simp only [TcpServer.step, hthread₁, h₁.server.serving.accepting, if_true] at hstep
          exact (Except.ok.inj hstep).symm
        refine ⟨{ s₁ with server := after }, hleads.trans (.step .accepted ?_
          (.refl _)), hafter, hpeers, by rw [heq]; exact hthread₁, ?_⟩
        · rw [Clients.step, if_pos hmore, hstep]
          rfl
        · rw [heq]
          show n + 1 ≤ (s₁.server.sessions ++ [_]).length
          rw [List.length_append]
          exact Nat.succ_le_succ hlength
      · exact ⟨s₁, hleads, h₁, hpeers, hthread₁, by rw [hpeers] at hmore; omega⟩

/-- A client that nobody else keeps from it can be handed one more message. -/
theorem leads_handed (h : Orderly ctime steady s) (hnow : ctime now ≠ none)
    (hpeer : s.peers[i]? = some peer)
    (hfree : ∀ j, s.server.thread.session = some j → j = i) :
    ∃ s' peer', Leads ctime steady.ops now s s' ∧ s'.peers[i]? = some peer' ∧
      peer'.handed.length = peer.handed.length + 1 := by
  cases hthread : s.server.thread with
  | polling =>
      have hi := (List.getElem?_eq_some_iff.mp hpeer).1
      obtain ⟨s₁, hleads, h₁, hpeers, hthread₁, hlength⟩ :=
        @leads_accepted _ _ _ _ _ now h hthread _ (Nat.succ_le_of_lt hi)
      rw [← hpeers] at hpeer
      obtain ⟨k, hk⟩ := h₁.peers i peer hpeer
      have hnotServed : ¬ s₁.server.Served i := fun hserved => by
        have hheld := (h₁.server.owned.owner i).mp hserved
        rw [hthread₁] at hheld
        cases hheld
      have hsession : ∃ reads, s₁.server.sessions[i]? = some (.matching reads) := by
        cases hget : s₁.server.sessions[i]? with
        | none => exact absurd (List.getElem?_eq_none_iff.mp hget) (by omega)
        | some session =>
            cases session with
            | matching reads => exact ⟨reads, rfl⟩
            | processing => exact absurd hget hnotServed
            | ended => exact absurd hget (h₁.server.noneEnded i)
      obtain ⟨reads, hreads⟩ := hsession
      have hzero : k = 0 := by_contra fun hne => hnotServed (hk.served.mpr hne)
      obtain ⟨s', peer', hrest, hmore⟩ := h₁.leads_answer hnow hpeer hk (by omega)
        (TcpServer.reader_of_matching hthread₁ hreads)
      exact ⟨s', peer', hleads.trans hrest, hmore⟩
  | waiting j reads =>
      obtain rfl := hfree j (by rw [hthread]; rfl)
      obtain ⟨k, hk⟩ := h.peers j peer hpeer
      rcases Nat.mod_two_eq_zero_or_one k with heven | hodd
      · exact h.leads_answer hnow hpeer hk heven (TcpServer.reader_of_waiting hthread)
      · exact leads_reply hnow hpeer hk hodd
  | sending j bytesSent =>
      obtain rfl := hfree j (by rw [hthread]; rfl)
      obtain ⟨s₁, hleads, h₁, hpeers, hthread₁⟩ := @leads_waiting _ _ _ _ _ now _ h _ hthread
      rw [← hpeers] at hpeer
      obtain ⟨k, hk⟩ := h₁.peers j peer hpeer
      rcases Nat.mod_two_eq_zero_or_one k with heven | hodd
      · obtain ⟨s', peer', hrest, hmore⟩ := h₁.leads_answer hnow hpeer hk heven
          (TcpServer.reader_of_waiting hthread₁)
        exact ⟨s', peer', hleads.trans hrest, hmore⟩
      · obtain ⟨s', peer', hrest, hmore⟩ := @leads_reply _ _ _ steady _ _ _ _ _ hnow hpeer hk hodd
        exact ⟨s', peer', hleads.trans hrest, hmore⟩
  | left => exact absurd hthread h.server.serving.running

/-! ## Two clients -/

/-- Of two clients one has been given nothing, and nothing is on its way to it. -/
theorem handed_eq_nil_or (h : Orderly ctime steady s) {j : Nat} {other : Peer}
    (hpeer : s.peers[i]? = some peer) (hother : s.peers[j]? = some other) (hne : i ≠ j) :
    peer.handed = [] ∨ other.handed = [] ∧ other.reads = [] ∧ other.toClient = [] := by
  obtain ⟨k, hk⟩ := h.peers i peer hpeer
  obtain ⟨l, hl⟩ := h.peers j other hother
  by_cases hzero : k = 0
  · have hlen := hk.handed
    rw [hzero] at hlen
    exact Or.inl (List.eq_nil_of_length_eq_zero hlen)
  · have hheld := (h.server.owned.owner i).mp (hk.served.mpr hzero)
    obtain rfl := h.zero_of_held hl hheld hne
    obtain ⟨msg, -, -, -, hreads, htoClient⟩ := hl.message
    exact Or.inr ⟨List.eq_nil_of_length_eq_zero hl.handed, hreads, htoClient⟩

/-- If there is a date at all, a client can still be given a message exactly when nobody
else has the thread. -/
theorem more_iff (h : Orderly ctime steady s) (hdate : ∃ now, ctime now ≠ none)
    (hpeer : s.peers[i]? = some peer) :
    (∃ later s' peer', (∀ event ∈ later, ctime event.1 ≠ none) ∧
        Machine.run (exec ctime steady.ops) s later = .ok s' ∧
        s'.peers[i]? = some peer' ∧ peer.handed.length < peer'.handed.length) ↔
      ∀ j, s.server.thread.session = some j → j = i := by
  apply Iff.intro
  · rintro ⟨later, s', peer', hlater, hrun', hpeer', hmore⟩ j hheld
    by_contra hne
    obtain ⟨h', hheld'⟩ := h.held_of_run hlater hrun'
    obtain ⟨k, hk⟩ := h'.peers i peer' hpeer'
    obtain rfl := h'.zero_of_held hk (hheld' j hheld) hne
    rw [hk.handed] at hmore
    exact absurd hmore (Nat.not_lt_zero _)
  · intro hfree
    obtain ⟨now, hnow⟩ := hdate
    obtain ⟨s', peer', ⟨happenings, hlater⟩, hpeer', hmore⟩ := h.leads_handed hnow hpeer hfree
    refine ⟨_, s', peer', fun event hevent => ?_, hlater, hpeer', by omega⟩
    obtain ⟨happening, -, rfl⟩ := List.mem_map.mp hevent
    exact hnow

end Orderly

/-! ## Every run -/

section Runs

variable {locationFile : Route.File} {entries : List Route.Entry} (ctime : UInt64 → Option Str)

/-- Over a locations file that loads, whatever happens, at most one client is ever given
a message: of two of them, one has been given none, and nothing is on its way to it
either. -/
theorem one_client_served (h : Loads locationFile entries)
    (hsep : ∀ entry ∈ entries, MSG_LOCATIONS_SEP_CHAR ∉ entry.1) (hn : entries.length ≤ 2 ^ 31)
    (routeFile : Route.File) (events : List (UInt64 × Happening))
    (hdated : ∀ event ∈ events, ctime event.1 ≠ none) :
    ∃ s, Machine.run (exec ctime (fileOps locationFile routeFile))
        (.start Route.RoutePlanner.create) events = .ok s ∧
      ∀ (i j : Nat) (p q : Peer), s.peers[i]? = some p → s.peers[j]? = some q → i ≠ j →
        p.handed = [] ∨ q.handed = [] ∧ q.reads = [] ∧ q.toClient = [] := by
  obtain ⟨s, hrun, horderly⟩ := Orderly.run_ofFile ctime h hsep hn routeFile hdated
  exact ⟨s, hrun, fun i j p q hp hq hne =>
    @Orderly.handed_eq_nil_or _ _ (.ofFile h hsep) _ s i p horderly j q hp hq hne⟩

/-- After every run, a client can still be given one more message exactly when no other
client's session has the server's thread. -/
theorem handed_more_iff (h : Loads locationFile entries)
    (hsep : ∀ entry ∈ entries, MSG_LOCATIONS_SEP_CHAR ∉ entry.1) (hn : entries.length ≤ 2 ^ 31)
    (routeFile : Route.File) (events : List (UInt64 × Happening))
    (hdated : ∀ event ∈ events, ctime event.1 ≠ none) :
    ∃ s, Machine.run (exec ctime (fileOps locationFile routeFile))
        (.start Route.RoutePlanner.create) events = .ok s ∧
      ∀ (i : Nat) (peer : Peer), s.peers[i]? = some peer →
        ((∃ later s' peer', (∀ event ∈ later, ctime event.1 ≠ none) ∧
            Machine.run (exec ctime (fileOps locationFile routeFile)) s later = .ok s' ∧
            s'.peers[i]? = some peer' ∧ peer.handed.length < peer'.handed.length) ↔
          ∀ j, s.server.thread.session = some j → j = i) := by
  obtain ⟨s, hrun, horderly⟩ := Orderly.run_ofFile ctime h hsep hn routeFile hdated
  refine ⟨s, hrun, fun i peer hpeer =>
    @Orderly.more_iff _ _ (.ofFile h hsep) (.ofFile h.parses routeFile hn) s i peer horderly ?_
      hpeer⟩
  -- somebody has connected, so there is a time that is a date
  cases events with
  | nil =>
      obtain rfl := Except.ok.inj hrun
      cases hpeer
  | cons event events => exact ⟨event.1, hdated event List.mem_cons_self⟩

end Runs

/-- Two clients connect, and the second one's request is read first. -/
def secondFirst : List (UInt64 × Happening) :=
  [(0, .connects), (0, .connects), (0, .accepted), (0, .accepted), (0, .serverReads 1 24)]

theorem one_client_served_secondFirst :
    ∃ s, Machine.run (exec (fun _ => some []) (fileOps Route.twoCitiesFile none))
        (.start Route.RoutePlanner.create) secondFirst = .ok s ∧
      ∀ (i j : Nat) (p q : Peer), s.peers[i]? = some p → s.peers[j]? = some q → i ≠ j →
        p.handed = [] ∨ q.handed = [] ∧ q.reads = [] ∧ q.toClient = [] :=
  one_client_served (fun _ => some []) loads_twoCities (by decide) (by decide) none secondFirst
    fun _ _ => nofun

theorem handed_more_iff_secondFirst :
    ∃ s, Machine.run (exec (fun _ => some []) (fileOps Route.twoCitiesFile none))
        (.start Route.RoutePlanner.create) secondFirst = .ok s ∧
      ∀ (i : Nat) (peer : Peer), s.peers[i]? = some peer →
        ((∃ later s' peer', (∀ event ∈ later, (some [] : Option Str) ≠ none) ∧
            Machine.run (exec (fun _ => some []) (fileOps Route.twoCitiesFile none)) s later =
              .ok s' ∧
            s'.peers[i]? = some peer' ∧ peer.handed.length < peer'.handed.length) ↔
          ∀ j, s.server.thread.session = some j → j = i) :=
  handed_more_iff (fun _ => some []) loads_twoCities (by decide) (by decide) none secondFirst
    fun _ _ => nofun

end Clients

end RoutePlanner.System
