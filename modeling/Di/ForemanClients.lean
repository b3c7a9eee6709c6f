import Di.Foreman

/-!
# The clients of the foreman

`updateMinionMap` opens a client for each new machine, keeps the clients of the
machines that stay and closes those of the machines that are gone.  Over any sequence
of calls, with `newClient` failing at will, every client is either in the map, under
the address it was opened for, or has been closed once.
-/

namespace Di

open Db

namespace Foreman

/-! ## Opened clients -/

/-- The addresses for which the first loop of `updateMinionMap` opens a client. -/
def dialed (dials : Machine → Bool) : List Machine → Minions × ℕ → List String
  | [], _ => []
  | m :: machines, state =>
      if m.publicIP ∉ state.1 ∧ dials m = true then
        m.publicIP :: dialed dials machines (markMachine dials state m)
      else dialed dials machines (markMachine dials state m)

/-- The arguments of `updateMinionMap`. -/
structure Call where
  turn : Turn
  machines : List Machine

def Call.Distinct (call : Call) : Prop := (call.machines.map Machine.publicIP).Nodup

def update (fm : Foreman) (call : Call) : Foreman := fm.updateMinionMap call.turn call.machines

def updates (calls : List Call) (fm : Foreman) : Foreman := calls.foldl update fm

/-- The address of every client that was opened, in the order of their numbers. -/
def clientIPs : List Call → Foreman → List String
  | [], _ => []
  | call :: calls, fm =>
      dialed call.turn.dials call.machines (fm.minions, fm.created) ++
        clientIPs calls (fm.update call)

def clientsOf (minions : Minions) : List ℕ := minions.entries.map fun e => e.2.client

/-- The clients are numbered in the order in which they were opened; every one of them
is closed or in the map, and not both. -/
structure Accounted (ips : List String) (closed : List ℕ) (state : Minions × ℕ) : Prop where
  created : state.2 = ips.length
  once : (closed ++ clientsOf state.1).Perm (List.range state.2)
  filed : ∀ ip entry, state.1.lookup ip = some entry → ips[entry.client]? = some ip

theorem clientsOf_insert_of_notMem {minions : Minions} {ip : String} (hip : ip ∉ minions)
    (entry : Entry) : clientsOf (minions.insert ip entry) = entry.client :: clientsOf minions := by
  rw [clientsOf, AList.entries_insert_of_notMem hip]
  rfl

theorem clientsOf_insert_perm {minions : Minions} {ip : String} {old : Entry}
    (hold : minions.lookup ip = some old) {entry : Entry} (hclient : entry.client = old.client) :
    (clientsOf (minions.insert ip entry)).Perm (clientsOf minions) := by
  have hkey : ip ∈ minions.entries.keys := AList.lookup_isSome.mp (by rw [hold]; rfl)
  rcases List.exists_of_kerase hkey with ⟨stored, front, back, _, hentries, herase⟩
  have hstored : stored = old := by
    have hmem : (⟨ip, stored⟩ : Σ _ : String, Entry) ∈ minions.entries := by simp [hentries]
    have hlookup := AList.mem_lookup_iff.mpr hmem
    rw [hold, Option.mem_def, Option.some.injEq] at hlookup
    exact hlookup.symm
  rw [clientsOf, clientsOf, AList.entries_insert, herase, hentries]
  simp only [List.map_cons, List.map_append, hstored, hclient]
  exact List.perm_middle.symm

/-! ## One call -/

section Mark

variable {dials : Machine → Bool} {ips : List String} {closed : List ℕ} {state : Minions × ℕ}

theorem Accounted.markMachine (haccounted : Accounted ips closed state) (m : Machine) :
    Accounted (ips ++ if m.publicIP ∉ state.1 ∧ dials m = true then [m.publicIP] else []) closed
      (markMachine dials state m) := by
  unfold Foreman.markMachine
  cases hlookup : state.1.lookup m.publicIP with
  | some min =>
      have hmem : m.publicIP ∈ state.1 := AList.lookup_isSome.mp (by rw [hlookup]; rfl)
      rw [if_neg fun h => h.1 hmem, List.append_nil]
      refine ⟨haccounted.created, ?_, ?_⟩
      · exact ((clientsOf_insert_perm hlookup rfl).append_left closed).trans haccounted.once
      · intro ip entry hentry
        by_cases hip : ip = m.publicIP
        · subst hip
          rw [AList.lookup_insert, Option.some.injEq] at hentry
          rw [← hentry]
          exact haccounted.filed _ min hlookup
        · rw [AList.lookup_insert_ne hip] at hentry
          exact haccounted.filed ip entry hentry
  | none =>
      have hmem : m.publicIP ∉ state.1 := AList.lookup_eq_none.mp hlookup
      by_cases hdials : dials m = true
      · rw [if_pos ⟨hmem, hdials⟩, if_pos hdials]
        refine ⟨by simp [haccounted.created], ?_, ?_⟩
        · rw [clientsOf_insert_of_notMem hmem, List.range_succ]
          exact List.perm_middle.trans ((haccounted.once.cons _).trans
            (List.perm_append_singleton _ _).symm)
        · intro ip entry hentry
          by_cases hip : ip = m.publicIP
          · subst hip
            rw [AList.lookup_insert, Option.some.injEq] at hentry
            rw [← hentry, haccounted.created]
            simp
          · rw [AList.lookup_insert_ne hip] at hentry
            have hfiled := haccounted.filed ip entry hentry
            rw [List.getElem?_append_left (List.getElem?_eq_some_iff.mp hfiled).1]
            exact hfiled
      · rw [if_neg fun h => hdials h.2, if_neg hdials, List.append_nil]
        exact haccounted

theorem Accounted.markAll (haccounted : Accounted ips closed state) (machines : List Machine) :
    Accounted (ips ++ dialed dials machines state) closed (markAll dials machines state) := by
  induction machines generalizing ips state with
  | nil =>
      rw [dialed, List.append_nil]
      exact haccounted
  | cons m machines ih =>
      have hmarked : Accounted _ closed (Foreman.markMachine dials state m) :=
        haccounted.markMachine m
      have hnext := ih hmarked
      rw [List.append_assoc] at hnext
      rw [dialed, Foreman.markAll, List.foldl_cons]
      by_cases hopens : m.publicIP ∉ state.1 ∧ dials m = true
      · rw [if_pos hopens] at hnext ⊢
        exact hnext
      · rw [if_neg hopens] at hnext ⊢
        exact hnext

end Mark

theorem clientsOf_sweep (minions : Minions) :
    clientsOf (sweep minions) =
      (minions.entries.filter fun e => e.2.mark).map fun e => e.2.client := by
  rw [clientsOf, sweep, mapEntries, filterEntries, List.map_map]
  rfl

theorem Accounted.update {ips : List String} {fm : Foreman}
    (haccounted : Accounted ips fm.closed (fm.minions, fm.created)) (call : Call) :
    Accounted (ips ++ dialed call.turn.dials call.machines (fm.minions, fm.created))
      (fm.update call).closed ((fm.update call).minions, (fm.update call).created) := by
  set marked := Foreman.markAll call.turn.dials call.machines (fm.minions, fm.created) with hset
  have hmarked : Accounted _ fm.closed marked := haccounted.markAll call.machines
  refine ⟨hmarked.created, ?_, ?_⟩
  · have hvisit := (call.turn.sweepOrder.perm
      (marked.1.entries.filter fun e => !e.2.mark)).map fun e => e.2.client
    have hsplit := (List.filter_append_perm (fun e => e.2.mark) marked.1.entries).map
      fun e => e.2.client
    rw [List.map_append] at hsplit
    refine List.Perm.trans ?_ hmarked.once
    change ((fm.closed ++ (call.turn.sweepOrder.visit
      (marked.1.entries.filter fun e => !e.2.mark)).map fun e => e.2.client) ++
        clientsOf (sweep marked.1)).Perm (fm.closed ++ clientsOf marked.1)
    rw [clientsOf_sweep, List.append_assoc]
    apply List.Perm.append_left
    exact (hvisit.append_right _).trans (List.perm_append_comm.trans hsplit)
  · intro ip entry hentry
    rcases lookup_sweep.mp hentry with ⟨min, hmin, _, rfl⟩
    exact hmarked.filed ip min hmin

/-! ## Whole runs -/

theorem Accounted.updates {ips : List String} {fm : Foreman}
    (haccounted : Accounted ips fm.closed (fm.minions, fm.created)) (calls : List Call) :
    Accounted (ips ++ clientIPs calls fm) (fm.updates calls).closed
      ((fm.updates calls).minions, (fm.updates calls).created) := by
  induction calls generalizing ips fm with
  | nil =>
      rw [clientIPs, List.append_nil]
      exact haccounted
  | cons call calls ih =>
      rw [clientIPs, ← List.append_assoc]
      exact ih (haccounted.update call)

theorem accounted_createForeman (clusterID : ℕ) :
    Accounted [] (createForeman clusterID).closed
      ((createForeman clusterID).minions, (createForeman clusterID).created) :=
  ⟨rfl, .refl _, by simp [createForeman]⟩

/-- A client is in the map under its address, or it was closed once. -/
theorem Accounted.fate {ips : List String} {closed : List ℕ} {state : Minions × ℕ}
    (haccounted : Accounted ips closed state) {client : ℕ} {ip : String}
    (hopened : ips[client]? = some ip) :
    ((∃ entry, state.1.lookup ip = some entry ∧ entry.client = client) ∧ client ∉ closed) ∨
      (closed.count client = 1 ∧
        ∀ other entry, state.1.lookup other = some entry → entry.client ≠ client) := by
  have hlt : client < state.2 := by
    rw [haccounted.created]
    exact (List.getElem?_eq_some_iff.mp hopened).1
  have hcount := haccounted.once.count_eq client
  rw [List.count_append, List.count_eq_one_of_mem List.nodup_range (List.mem_range.mpr hlt)]
    at hcount
  by_cases hclosed : client ∈ closed
  · right
    have hpos := List.count_pos_iff.mpr hclosed
    refine ⟨by omega, ?_⟩
    intro other entry hentry hclient
    have hmem : client ∈ clientsOf state.1 :=
      List.mem_map.mpr ⟨⟨other, entry⟩, AList.mem_lookup_iff.mp hentry, hclient⟩
    have hpos' := List.count_pos_iff.mpr hmem
    omega
  · left
    refine ⟨?_, hclosed⟩
    rw [List.count_eq_zero.mpr hclosed, Nat.zero_add] at hcount
    have hmem : client ∈ clientsOf state.1 := List.count_pos_iff.mp (by omega)
    rcases List.mem_map.mp hmem with ⟨e, he, hclient⟩
    have hentry : state.1.lookup e.1 = some e.2 := AList.mem_lookup_iff.mpr he
    have hfiled := haccounted.filed e.1 e.2 hentry
    rw [hclient, hopened, Option.some.injEq] at hfiled
    exact ⟨e.2, hfiled ▸ hentry, hclient⟩

/-! ## The map after a call -/

section Map

variable {dials : Machine → Bool} {state : Minions × ℕ} {ip : String}

/-- The first loop keeps the clients that are in the map. -/
theorem markMachine_keeps {entry : Entry} (hentry : state.1.lookup ip = some entry) (m : Machine) :
    ∃ next, (markMachine dials state m).1.lookup ip = some next ∧ next.client = entry.client := by
  by_cases hip : ip = m.publicIP
  · subst hip
    unfold markMachine
    rw [hentry]
    exact ⟨_, AList.lookup_insert _, rfl⟩
  · exact ⟨entry, (lookup_markMachine_of_ne dials state hip).trans hentry, rfl⟩

theorem markAll_keeps {entry : Entry} (hentry : state.1.lookup ip = some entry)
    (machines : List Machine) :
    ∃ next, (markAll dials machines state).1.lookup ip = some next ∧
      next.client = entry.client := by
  induction machines generalizing state entry with
  | nil => exact ⟨entry, hentry, rfl⟩
  | cons m machines ih =>
      have hkeeps : ∃ marked, (markMachine dials state m).1.lookup ip = some marked ∧
          marked.client = entry.client := markMachine_keeps hentry m
      rcases hkeeps with ⟨marked, hmarked, hclient⟩
      rcases ih hmarked with ⟨next, hnext, hsame⟩
      exact ⟨next, hnext, hsame.trans hclient⟩

/-- An entry is there already or has been opened. -/
theorem mem_of_mem_markAll {machines : List Machine} (hip : ip ∈ (markAll dials machines state).1) :
    ip ∈ state.1 ∨ ∃ m ∈ machines, m.publicIP = ip ∧ dials m = true := by
  induction machines generalizing state with
  | nil => exact .inl hip
  | cons m machines ih =>
      rcases ih hip with hmarked | ⟨other, hother, hopened⟩
      · unfold markMachine at hmarked
        split at hmarked
        next min hmin =>
          rcases (AList.mem_insert _).mp hmarked with rfl | hold
          · exact .inl (AList.lookup_isSome.mp (by rw [hmin]; rfl))
          · exact .inl hold
        next =>
          split at hmarked
          next hdials =>
            rcases (AList.mem_insert _).mp hmarked with rfl | hold
            · exact .inr ⟨m, List.mem_cons_self, rfl, hdials⟩
            · exact .inl hold
          · exact .inl hmarked
      · exact .inr ⟨other, List.mem_cons_of_mem m hother, hopened⟩

end Map

theorem mem_update_iff {fm : Foreman} {call : Call} (hdistinct : call.Distinct) (ip : String) :
    ip ∈ (fm.update call).minions ↔
      ∃ m ∈ call.machines, m.publicIP = ip ∧ (ip ∈ fm.minions ∨ call.turn.dials m = true) := by
  constructor
  · intro hip
    rcases Option.isSome_iff_exists.mp (AList.lookup_isSome.mpr hip) with ⟨entry, hentry⟩
    rcases updateMinionMap_entry hdistinct hentry with ⟨m, hm, hpublic, _⟩
    refine ⟨m, hm, hpublic, ?_⟩
    rcases lookup_sweep.mp hentry with ⟨min, hmin, _, _⟩
    have hmarked : ip ∈ (markAll call.turn.dials call.machines (fm.minions, fm.created)).1 :=
      AList.lookup_isSome.mp (by rw [hmin]; rfl)
    rcases mem_of_mem_markAll hmarked with hold | ⟨other, hother, hname, hdials⟩
    · exact .inl hold
    · have hsame : m = other :=
        List.inj_on_of_nodup_map hdistinct hm hother (hpublic.trans hname.symm)
      exact .inr (hsame ▸ hdials)
  · rintro ⟨m, hm, rfl, hclient⟩
    exact mem_updateMinionMap hdistinct hm hclient.symm

theorem update_keeps {fm : Foreman} {call : Call} (hdistinct : call.Distinct) {ip : String}
    {entry : Entry} (hentry : fm.minions.lookup ip = some entry)
    (hstays : ip ∈ call.machines.map Machine.publicIP) :
    ∃ next, (fm.update call).minions.lookup ip = some next ∧ next.client = entry.client := by
  rcases List.mem_map.mp hstays with ⟨m, hm, rfl⟩
  have hmarkedAll : ∃ next,
      (markAll call.turn.dials call.machines (fm.minions, fm.created)).1.lookup m.publicIP =
        some next ∧ next.client = entry.client := markAll_keeps hentry call.machines
  rcases hmarkedAll with ⟨next, hnext, hclient⟩
  have hmark := (markAll_entry hdistinct hm hnext).2
  exact ⟨_, lookup_sweep.mpr ⟨next, hnext, hmark, rfl⟩, hclient⟩

/-- Any sequence of calls of `updateMinionMap`, with any calls of `newClient` failing.
After each call the map has an entry for exactly the listed machines that have a client,
with their data and without a mark; a machine that stays keeps its client; and every
client opened so far is in the map under its address, or it was closed exactly once and
is not in the map any more. -/
theorem updates_bookkeeping (clusterID : ℕ) {calls : List Call}
    (hdistinct : ∀ call ∈ calls, call.Distinct) {before after : List Call} {call : Call}
    (hsplit : calls = before ++ call :: after) :
    let fm := (createForeman clusterID).updates before
    let next := (createForeman clusterID).updates (before ++ [call])
    (∀ ip, ip ∈ next.minions ↔
      ∃ m ∈ call.machines, m.publicIP = ip ∧ (ip ∈ fm.minions ∨ call.turn.dials m = true)) ∧
    (∀ ip entry, next.minions.lookup ip = some entry →
      entry.machine ∈ call.machines ∧ entry.machine.publicIP = ip ∧ entry.mark = false) ∧
    (∀ ip entry, fm.minions.lookup ip = some entry →
      ip ∈ call.machines.map Machine.publicIP →
        ∃ kept, next.minions.lookup ip = some kept ∧ kept.client = entry.client) ∧
    ∀ client ip, (clientIPs (before ++ [call]) (createForeman clusterID))[client]? = some ip →
      ((∃ entry, next.minions.lookup ip = some entry ∧ entry.client = client) ∧
          client ∉ next.closed) ∨
        (next.closed.count client = 1 ∧
          ∀ other entry, next.minions.lookup other = some entry → entry.client ≠ client) := by
  intro fm next
  have hcall : call.Distinct := hdistinct call (by simp [hsplit])
  have hnext : next = fm.update call := by
    simp only [next, fm, updates, List.foldl_append, List.foldl_cons, List.foldl_nil]
  have haccounted : Accounted (clientIPs (before ++ [call]) (createForeman clusterID))
      next.closed (next.minions, next.created) :=
    (accounted_createForeman clusterID).updates (before ++ [call])
  refine ⟨?_, ?_, ?_, ?_⟩
  · rw [hnext]
    exact mem_update_iff hcall
  · intro ip entry hentry
    have hmark := next.unmarked ip entry hentry
    rw [hnext] at hentry
    rcases updateMinionMap_entry hcall hentry with ⟨m, hm, hpublic, rfl⟩
    exact ⟨hm, hpublic, hmark⟩
  · rw [hnext]
    exact fun ip entry => update_keeps hcall
  · exact fun client ip => haccounted.fate

/-- One machine that stays and one that leaves, whose clients have the numbers 0 and 1. -/
def twoCalls : List Call :=
  [⟨reliable, [{ ID := 1, publicIP := "1.1.1.1" }, { ID := 2, publicIP := "2.2.2.2" }]⟩,
    ⟨reliable, [{ ID := 1, publicIP := "1.1.1.1" }]⟩]

theorem updates_bookkeeping_twoCalls :
    (∀ call ∈ twoCalls, call.Distinct) ∧
      ∀ client ip, (clientIPs twoCalls (createForeman 0))[client]? = some ip →
        ((∃ entry, ((createForeman 0).updates twoCalls).minions.lookup ip = some entry ∧
            entry.client = client) ∧ client ∉ ((createForeman 0).updates twoCalls).closed) ∨
          (((createForeman 0).updates twoCalls).closed.count client = 1 ∧
            ∀ other entry, ((createForeman 0).updates twoCalls).minions.lookup other = some entry →
              entry.client ≠ client) := by
  have hdistinct : ∀ call ∈ twoCalls, call.Distinct := by
    intro call hcall
    simp only [twoCalls, List.mem_cons, List.not_mem_nil, or_false] at hcall
    rcases hcall with rfl | rfl
    · unfold Call.Distinct
      decide
    · unfold Call.Distinct
      decide
  exact ⟨hdistinct, (updates_bookkeeping 0 hdistinct
    (show twoCalls = [_] ++ _ :: [] from rfl)).2.2.2⟩

end Foreman
end Di
